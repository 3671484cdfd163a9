import LinearAssignment.Cost
import LinearAssignment.CostMatrix

/-!
Matchings of rows with columns, their growth along an alternating path, and the potentials that
certify them.
-/
namespace LinearAssignment

/-- The column of each row and the row of each column, where they have one. -/
structure Matching (n m : Nat) where
  columnOf : Vector (Option (Fin m)) n
  rowOf : Vector (Option (Fin n)) m

namespace Matching

variable {n m : Nat}

def empty : Matching n m := ⟨Vector.replicate n none, Vector.replicate m none⟩

def isFree (s : Matching n m) (j : Fin m) : Bool := s.rowOf[j].isNone

/-- Pairs a row with a column. What either held before is not touched. -/
def pair (s : Matching n m) (i : Fin n) (j : Fin m) : Matching n m :=
  ⟨s.columnOf.setIfInBounds i (some j), s.rowOf.setIfInBounds j (some i)⟩

/-- Walks back from a column to the root of a search: the row that reached a column is paired
with it and gives up its former column, which is the next one. At most `steps` rows are
visited. -/
def flip (reachedBy : Fin m → Option (Fin n)) (root : Fin n) :
    Nat → Matching n m → Fin m → Matching n m
  | 0, s, _ => s
  | steps + 1, s, j =>
    match reachedBy j with
    | none => s
    | some i =>
      let former := s.columnOf[i]
      let s := s.pair i j
      if i = root then s
      else
        match former with
        | none => s
        | some j' => flip reachedBy root steps s j'

def augment (s : Matching n m) (reachedBy : Fin m → Option (Fin n)) (root : Fin n)
    (sink : Fin m) : Matching n m :=
  s.flip reachedBy root n sink

end Matching

structure DualMatching (α : Type) (n m : Nat) extends Matching n m where
  rowPotential : Vector α n
  columnPotential : Vector α m

namespace DualMatching

variable {α : Type} {n m : Nat}

def transpose (s : DualMatching α n m) : DualMatching α m n where
  columnOf := s.rowOf
  rowOf := s.columnOf
  rowPotential := s.columnPotential
  columnPotential := s.rowPotential

def trivial [Cost α] : DualMatching α n m where
  toMatching := .empty
  rowPotential := Vector.replicate n 0
  columnPotential := Vector.replicate m 0

end DualMatching

end LinearAssignment
