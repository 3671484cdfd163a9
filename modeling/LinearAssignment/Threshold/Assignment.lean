import LinearAssignment.Dense.Solver
import LinearAssignment.Rectangular.Solver
import LinearAssignment.Threshold.Tensor
import LinearAssignment.Trace

/-!
Assignment below a threshold by either solver, and assigners: a solver with a threshold, applied to
tensors.
-/
namespace LinearAssignment

section solvers

variable {τ α : Type} [Cost α] [Threshold τ α] {n m : Nat}

namespace Dense

/-- The matches of the extended problem. The dense solver needs a complete matching, which only
the extended problem is certain to have. -/
def assign (c : CostMatrix α n m) (threshold : τ) :
    Run (Event α) Failure PartialMatching := do
  let gated := c.gate (Threshold.toCost threshold)
  let s ← (solve (gated.extendAt threshold) false).mapError .search
  let pairs := (s.columnOf.toList.take n).zipIdx.filterMap fun (j, i) =>
    j.map fun j => ((i : Int), (j.val : Int))
  return gated.split pairs

end Dense

namespace Rectangular

/-- The matches of the problem itself if the threshold is not finite and the smaller side can
be matched completely, and of the extended problem otherwise. -/
def assign (c : CostMatrix α n m) (threshold : τ) :
    Run (Event α) Failure PartialMatching := do
  let gated := c.gate (Threshold.toCost threshold)
  let pairs (verdict : List (Nat × Nat)) := gated.split (verdict.map fun p => (p.1, p.2))
  let extended : Run (Event α) Failure PartialMatching := do
    let verdict ← (solve (gated.extendAt threshold) false).mapError .search
    return pairs (← .ofExcept verdict.unwrap).pairs
  if Threshold.isFinite α threshold then extended
  else
    match ← (solve gated false).mapError .search with
    | .infeasible => extended
    | verdict => return pairs (← .ofExcept verdict.unwrap).pairs

end Rectangular

end solvers

inductive Solver where
  | dense
  | rectangular
  /-- No solver: the assigner does not say how it assigns. -/
  | unspecified
  deriving DecidableEq

def Solver.assignerName : Solver → String
  | dense => "Jonker"
  | rectangular => "Crouse"
  | unspecified => "Assignment"

structure Assigner where
  solver : Solver
  threshold : Scalar := .real .infinity

namespace Solver

def assignMatrix (solver : Solver) (problem : Problem) (threshold : Binary .double) :
    Run TraceRecord Failure PartialMatching :=
  match solver with
  | .dense =>
    let run := Dense.assign problem.cost threshold
    ⟨run.events.map .ofDense, run.outcome⟩
  | .rectangular =>
    let run := Rectangular.assign problem.cost threshold
    ⟨run.events.map .ofRectangular, run.outcome⟩
  | .unspecified => .ofExcept (.error .notImplemented)

/-- Assigns a list of entries of the given dimensions, or fails before any solver is called. Only
the rectangular solver, when the threshold is not finite, takes the entries as they are and so
reports their dimensions. -/
def assignEntries (solver : Solver) (p : Precision) (shape : List Nat) (entries : List p.Number)
    (threshold : Scalar) : Except Failure (Run TraceRecord Failure PartialMatching) := do
  let threshold ← threshold.checkedDouble
  match shape with
  | [n, m] =>
    match Problem.ofEntries? p n m entries with
    | some problem => return solver.assignMatrix problem threshold
    | none => throw .notAMatrix
  | other =>
    if solver = .rectangular ∧ ¬ threshold.isFinite then
      throw (.violation (.notTwoDimensional other.length))
    else throw .notAMatrix

def assign (solver : Solver) (t : Tensor) (threshold : Scalar) :
    Except Failure (Run TraceRecord Failure PartialMatching) :=
  solver.assignEntries t.type.precision t.shape t.numbers threshold

end Solver

inductive Application where
  /-- The matching is known without a solver. -/
  | immediate (m : PartialMatching)
  /-- A solver has been called. -/
  | called (run : Run TraceRecord Failure PartialMatching)

def Application.outcome : Application → Except Failure PartialMatching
  | immediate m => .ok m
  | called run => run.outcome

namespace Assigner

/-- Applies an assigner to a tensor. An empty matrix has no matches; the elements of any other
are compared with the threshold in their own type first. -/
def apply (a : Assigner) (t : Tensor) : Except Failure Application := do
  if t.shape.isEmpty then throw .noDimensions
  if t.shape.contains 0 then
    match t.shape with
    | [n, m] => return .immediate (.ofMatches n m [])
    | _ => throw .notAMatrix
  let gated ← t.gated a.threshold
  if a.solver = .unspecified then throw .notImplemented
  return .called (← a.solver.assignEntries t.type.precision t.shape gated a.threshold)

def text (a : Assigner) : String :=
  a.solver.assignerName ++ "(threshold=" ++ a.threshold.text ++ ")"

end Assigner

end LinearAssignment
