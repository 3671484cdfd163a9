import LinearAssignment.Cost
import LinearAssignment.CostMatrix

/-!
The total cost of an assignment and the certificate of its optimality.

Potentials certify an assignment if no reduced cost is negative and the reduced costs of the
matched pairs are zero. Both are checked up to a tolerance that scales with the largest
magnitude of the matrix.
-/
namespace LinearAssignment.CostMatrix

variable {α : Type} {n m : Nat}

def entry? (cost : CostMatrix α n m) (i j : Nat) : Option α :=
  if h : i < n ∧ j < m then some cost[(⟨i, h.1⟩ : Fin n)][(⟨j, h.2⟩ : Fin m)] else none

def matched (cost : CostMatrix α n m) (columnOf : Vector (Option (Fin m)) n) : List α :=
  (List.finRange n).filterMap fun i => columnOf[i].map fun j => cost[i][j]

/-- The entries of the matched pairs of an assignment of any length, unless one of the pairs
lies outside the matrix. -/
def matched? (cost : CostMatrix α n m) (columns : List (Option Nat)) : Option (List α) :=
  (columns.zipIdx.filterMap fun (j, i) => j.map fun j => (i, j)).mapM fun (i, j) => cost.entry? i j

variable [Cost α]

def total (cost : CostMatrix α n m) (columnOf : Vector (Option (Fin m)) n) : α :=
  Cost.sum (cost.matched columnOf)

def lessRows (cost : CostMatrix α n m) (u : Vector α n) : CostMatrix α n m :=
  .ofFn fun i j => cost[i][j] - u[i]

def lessColumns (cost : CostMatrix α n m) (v : Vector α m) : CostMatrix α n m :=
  .ofFn fun i j => cost[i][j] - v[j]

def reduced (cost : CostMatrix α n m) (u : Vector α n) (v : Vector α m) : CostMatrix α n m :=
  (cost.lessRows u).lessColumns v

def magnitude? (cost : CostMatrix α n m) : Option α :=
  match (cost.entries.filter Cost.isFinite).map Cost.abs with
  | [] => none
  | x :: rest => some (rest.foldl (fun a b => if a < b then b else a) x)

def isFeasible {β : Type} [Cost β] (cost : CostMatrix α n m) (reduced : CostMatrix β n m)
    (tolerance : β) : Bool :=
  (List.finRange n).all fun i => (List.finRange m).all fun j =>
    !(Cost.isFinite cost[i][j] && reduced[i][j] < -tolerance)

def isTight (reduced : List α) (tolerance : α) : Bool :=
  reduced.all fun x => Cost.atMost (Cost.abs x) tolerance

def certifies (cost : CostMatrix α n m) (columnOf : Vector (Option (Fin m)) n) (u : Vector α n)
    (v : Vector α m) (tolerance : α) : Bool :=
  let reduced := cost.reduced u v
  cost.isFeasible reduced tolerance && isTight (reduced.matched columnOf) tolerance

/-- Whether potentials certify an assignment up to the tolerance that goes with the largest
magnitude. A matrix without finite entries needs no certificate. -/
def isDualFeasible (cost : CostMatrix α n m) (columnOf : Vector (Option (Fin m)) n)
    (u : Vector α n) (v : Vector α m) (tolerance : α → α) : Bool :=
  match cost.magnitude? with
  | none => true
  | some magnitude => cost.certifies columnOf u v (tolerance magnitude)

end LinearAssignment.CostMatrix
