import LinearAssignment.Certificate
import LinearAssignment.Dense.Augmentation
import LinearAssignment.NormalForm
import LinearAssignment.Run

/-!
The dense solver. A matrix that has no more rows than columns goes through two phases of row
reduction, then an augmentation for each row that is still free; matrices of any shape are
solved in their normal form. The solver trusts its caller: the matrix must have no invalid
entry, and some matching of its smaller side must avoid the forbidden pairings.
-/
namespace LinearAssignment.Dense

inductive Event (α : Type) where
  /-- A phase of row reduction has ended with so many free rows. -/
  | rowReduction (phase free : Nat)
  /-- A free row is about to be matched, as one of so many. -/
  | augment (row step free : Nat)
  /-- The problem is solved at this total cost. -/
  | done (total : α)

variable {α : Type} [Cost α] {n m : Nat}

/-- Matches the free rows one after the other, of which `step - 1` have been matched before
and `count` have to be matched in all. -/
def augmentAll (cost : CostMatrix α n m) (count : Nat) :
    Nat → List (Fin n) → PricedMatching α n m →
      Run (Event α) SearchError (PricedMatching α n m)
  | _, [], p => pure p
  | step, i :: rest, p => do
    .emit (.augment i step count)
    let p ← .ofExcept (p.augmentRow cost i)
    augmentAll cost count (step + 1) rest p

def complete (cost : CostMatrix α n m) : Run (Event α) SearchError (PricedMatching α n m) := do
  let (p, free) ← .ofExcept (PricedMatching.initial.reduceRows cost (List.finRange n))
  .emit (.rowReduction 1 free.length)
  let (p, free) ← .ofExcept (p.reduceRows cost free)
  .emit (.rowReduction 2 free.length)
  augmentAll cost free.length 1 free p

/-- The potential of a row is what the price of its column leaves of its cost. -/
def rowPotential (cost : CostMatrix α n m) (p : PricedMatching α n m) (i : Fin n) : α :=
  match p.columnOf[i] with
  | some j => cost[i][j] - p.price[j]
  | none => 0

def solveWide (cost : CostMatrix α n m) : Run (Event α) SearchError (DualMatching α n m) := do
  let p ← complete cost
  return { toMatching := p.toMatching, rowPotential := Vector.ofFn (rowPotential cost p),
           columnPotential := p.price }

/-- A matching of the smaller side, potentials that certify it, and its total cost in the given
matrix. When the total is maximised, the potentials are those of the negated matrix. -/
structure Solution (α : Type) (n m : Nat) extends DualMatching α n m where
  total : α

def solveNormal : NormalForm α n m → Run (Event α) SearchError (DualMatching α n m)
  | .upright _ cost => solveWide cost
  | .transposed _ cost => do return (← solveWide cost).transpose

/-- A matching of the smaller side at minimum or maximum total cost. -/
def solve (cost : CostMatrix α n m) (maximize : Bool) :
    Run (Event α) SearchError (Solution α n m) := do
  let s ← if min n m = 0 then pure .trivial else solveNormal (cost.normalize maximize)
  let total := cost.total s.columnOf
  .emit (.done total)
  return { toDualMatching := s, total }

end LinearAssignment.Dense
