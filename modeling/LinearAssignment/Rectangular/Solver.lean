import LinearAssignment.Failure
import LinearAssignment.NormalForm
import LinearAssignment.Rectangular.Completion

/-!
The rectangular solver for matrices of any shape. It checks its input: a matrix with an
invalid entry is reported as such, and so is one in which every matching of the smaller side
meets a forbidden pairing. The status of a solve tells the three cases apart.
-/
namespace LinearAssignment.Rectangular

inductive Verdict (β : Type) where
  | solved (solution : β)
  /-- Every matching of the smaller side meets a forbidden pairing. -/
  | infeasible
  /-- The matrix has an invalid entry. -/
  | invalid

def Verdict.map {β γ : Type} (g : β → γ) : Verdict β → Verdict γ
  | solved s => solved (g s)
  | infeasible => infeasible
  | invalid => invalid

/-- The matched pairs in ascending order of their rows, and the potentials that certify them.
When the total is maximised, the potentials are those of the negated matrix. -/
structure Solution (α : Type) (n m : Nat) where
  pairs : List (Nat × Nat)
  rowPotential : Vector α n
  columnPotential : Vector α m

variable {α : Type} [Cost α] {n m : Nat}

def Solution.ofUpright (s : DualMatching α n m) : Solution α n m where
  pairs := NormalForm.restorePairs false s.columns
  rowPotential := s.rowPotential
  columnPotential := s.columnPotential

def Solution.ofTransposed (s : DualMatching α m n) : Solution α n m where
  pairs := NormalForm.restorePairs true s.columns
  rowPotential := s.columnPotential
  columnPotential := s.rowPotential

def solveChecked (cost : CostMatrix α n m) :
    Run (Event α) SearchError (Verdict (DualMatching α n m)) := do
  if cost.hasInvalidEntry then
    .emit .invalid
    return .invalid
  match ← solveWide cost with
  | none => return .infeasible
  | some s => return .solved s

def solveNormal : NormalForm α n m → Run (Event α) SearchError (Verdict (Solution α n m))
  | .upright _ cost => do return (← solveChecked cost).map .ofUpright
  | .transposed _ cost => do return (← solveChecked cost).map .ofTransposed

/-- A matching of the smaller side at minimum or maximum total cost, if there is one. -/
def solve (cost : CostMatrix α n m) (maximize : Bool) :
    Run (Event α) SearchError (Verdict (Solution α n m)) := do
  if min n m = 0 then return .solved ⟨[], Vector.replicate n 0, Vector.replicate m 0⟩
  let verdict ← solveNormal (cost.normalize maximize)
  if let .solved _ := verdict then .emit (.done (min n m))
  return verdict

inductive Status where
  | ok
  | infeasible
  | invalid
  deriving DecidableEq

namespace Status

def code : Status → Int
  | ok => 0
  | infeasible => -1
  | invalid => -2

def name : Status → String
  | ok => "OK"
  | infeasible => "INFEASIBLE"
  | invalid => "INVALID"

def ofCode? (z : Int) : Option Status :=
  [ok, infeasible, invalid].find? fun s => s.code = z

def unwrap : Status → Except Failure Unit
  | ok => .ok ()
  | infeasible => .error .infeasible
  | invalid => .error .invalid

end Status

namespace Verdict

variable {β : Type}

def status : Verdict β → Status
  | solved _ => .ok
  | infeasible => .infeasible
  | invalid => .invalid

def unwrap : Verdict β → Except Failure β
  | solved s => .ok s
  | infeasible => .error .infeasible
  | invalid => .error .invalid

end Verdict

end LinearAssignment.Rectangular
