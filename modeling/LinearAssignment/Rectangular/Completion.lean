import LinearAssignment.CostMatrix
import LinearAssignment.Matching
import LinearAssignment.Rectangular.PathSearch
import LinearAssignment.Run

/-!
The rectangular solver for matrices that have no more rows than columns and no invalid entry:
the rows are matched one after the other, each along a shortest path, and the potentials of
all scanned rows and columns follow.
-/
namespace LinearAssignment.Rectangular

inductive Event (α : Type) where
  /-- A row is matched along a path that ends in the column `sink`. -/
  | augment (row sink : Nat) (length : α)
  /-- No path leads from the row to a free column. -/
  | infeasible (row : Nat)
  /-- The matrix has an invalid entry. -/
  | invalid
  /-- The problem is solved by so many pairs. -/
  | done (matched : Nat)

/-- The rows matched so far, the potentials, and the rows through which the columns were
reached in the latest searches. -/
structure Progress (α : Type) (n m : Nat) extends DualMatching α n m where
  reachedBy : Vector (Option (Fin n)) m

namespace Progress

variable {α : Type} [Cost α] {n m : Nat}

def initial : Progress α n m := ⟨.trivial, Vector.replicate m none⟩

/-- The potential of a row after a search from row `root`. The root itself rises by the length
of the path, any other scanned row by the part of it that lies beyond its own column. -/
def raisedRow (p : Progress α n m) (s : PathSearch α n m) (root : Fin n) (length : α)
    (i : Fin n) : α :=
  let u := p.rowPotential[i]
  if i = root then u + length
  else if s.scannedRows[i] then
    match p.columnOf[i] with
    | some j => u + (length - s.distance[j])
    | none => u
  else u

/-- The potential of a column after a search: a scanned column falls by the part of the path
that lies beyond it. -/
def loweredColumn (p : Progress α n m) (s : PathSearch α n m) (length : α) (j : Fin m) : α :=
  let v := p.columnPotential[j]
  if s.scannedColumns[j] then v - (length - s.distance[j]) else v

def advance (p : Progress α n m) (s : PathSearch α n m) (root : Fin n) (sink : Sink α m) :
    Progress α n m where
  toMatching := p.toMatching.augment (fun j => s.reachedBy[j]) root sink.column
  rowPotential := Vector.ofFn (p.raisedRow s root sink.length)
  columnPotential := Vector.ofFn (p.loweredColumn s sink.length)
  reachedBy := s.reachedBy

def search (cost : CostMatrix α n m) (p : Progress α n m) (i : Fin n) :
    Except SearchError (PathSearch α n m × Option (Sink α m)) :=
  PathSearch.run cost p.rowPotential p.columnPotential p.toMatching 0 i (.start p.reachedBy)

def matchRows (cost : CostMatrix α n m) :
    List (Fin n) → Progress α n m →
      Run (Event α) SearchError (Option (DualMatching α n m))
  | [], p => pure (some p.toDualMatching)
  | i :: rest, p => do
    let (s, found) ← .ofExcept (p.search cost i)
    match found with
    | none =>
      .emit (.infeasible i)
      return none
    | some sink =>
      .emit (.augment i sink.column sink.length)
      matchRows cost rest (p.advance s i sink)

end Progress

variable {α : Type} [Cost α] {n m : Nat}

/-- The solution of a matrix that has no more rows than columns, or nothing if no matching of
all rows avoids the forbidden pairings. -/
def solveWide (cost : CostMatrix α n m) :
    Run (Event α) SearchError (Option (DualMatching α n m)) :=
  Progress.matchRows cost (List.finRange n) .initial

end LinearAssignment.Rectangular
