import LinearAssignment.Dense.Solver
import LinearAssignment.Output
import LinearAssignment.Problem
import LinearAssignment.Rectangular.Solver
import LinearAssignment.Table.Nested
import LinearAssignment.Trace

/-!
Requests to the solvers, the checks that they pass before they are solved, and the responses with
the answers of either solver.
-/
namespace LinearAssignment

inductive CostArgument where
  | table (t : Table)
  | nested (x : Nested)

def CostArgument.toTable : CostArgument → Except Failure Table
  | table t => .ok t
  | nested x =>
    match x.toTable? with
    | some t => .ok t
    | none => .error .ragged

def CostArgument.toProblem (cost : CostArgument) (shape : Option (List Dimension))
    (precision : Option String) : Except Failure Problem := do
  (← cost.toTable).toProblem shape precision

structure Request where
  cost : CostArgument
  shape : Option (List Dimension) := none
  precision : Option String := none
  maximize : Bool := false
  /-- The names of the slots that receive the assignment. -/
  outputs : Option (List String) := none

/-- The problem of a request and the slots that receive its solution. The matrix is checked
before the outputs, whose sizes depend on it. -/
def Request.prepare (request : Request) (slots : Slots) (sizes : Nat → Nat → Nat × Nat) :
    Except Failure (Problem × Option (String × String)) := do
  let problem ← request.cost.toProblem request.shape request.precision
  let names ← slots.accept request.outputs (sizes problem.rows problem.columns)
  return (problem, names)

structure Response (Answer : Type → Type) where
  events : List TraceRecord
  outcome : Except Failure ((p : Precision) × Answer p.Number)
  slots : Slots

def indexOrMinusOne {k : Nat} : Option (Fin k) → Int
  | some i => i.val
  | none => -1

namespace Dense

/-- The total cost, the column of each row, the row of each column and the potentials. An
index of -1 stands for none. -/
structure Answer (α : Type) where
  total : α
  columnOfRow : List Int
  rowOfColumn : List Int
  rowPotential : List α
  columnPotential : List α

def outputSizes (n m : Nat) : Nat × Nat := (n, m)

def Solution.deliver {α : Type} {n m : Nat} (s : Solution α n m) (slots : Slots)
    (names : Option (String × String)) : Slots × Answer α :=
  let halves := (s.columnOf.toList.map indexOrMinusOne, s.rowOf.toList.map indexOrMinusOne)
  let (slots, columns, rows) := slots.deliver names halves
  (slots, ⟨s.total, columns, rows, s.rowPotential.toList, s.columnPotential.toList⟩)

/-- Solves a request. The slots are written only when there is a solution. -/
def respond (request : Request) (slots : Slots) : Response Answer :=
  match request.prepare slots outputSizes with
  | .error e => ⟨[], .error e, slots⟩
  | .ok (problem, names) =>
    let run := solve problem.cost request.maximize
    let events := run.events.map .ofDense
    match run.outcome with
    | .error e => ⟨events, .error (.search e), slots⟩
    | .ok s =>
      let (slots, answer) := s.deliver slots names
      ⟨events, .ok ⟨problem.precision, answer⟩, slots⟩

end Dense

namespace Rectangular

structure Answer (α : Type) where
  rows : List Int
  columns : List Int
  rowPotential : List α
  columnPotential : List α

def outputSizes (n m : Nat) : Nat × Nat := (min n m, min n m)

def Solution.deliver {α : Type} {n m : Nat} (s : Solution α n m) (slots : Slots)
    (names : Option (String × String)) : Slots × Answer α :=
  let halves := (s.pairs.map fun p => (p.1 : Int), s.pairs.map fun p => (p.2 : Int))
  let (slots, rows, columns) := slots.deliver names halves
  (slots, ⟨rows, columns, s.rowPotential.toList, s.columnPotential.toList⟩)

def respond (request : Request) (slots : Slots) : Response fun α => Verdict (Answer α) :=
  match request.prepare slots outputSizes with
  | .error e => ⟨[], .error e, slots⟩
  | .ok (problem, names) =>
    let run := solve problem.cost request.maximize
    let events := run.events.map .ofRectangular
    match run.outcome with
    | .error e => ⟨events, .error (.search e), slots⟩
    | .ok (.solved s) =>
      let (slots, answer) := s.deliver slots names
      ⟨events, .ok ⟨problem.precision, .solved answer⟩, slots⟩
    | .ok .infeasible => ⟨events, .ok ⟨problem.precision, .infeasible⟩, slots⟩
    | .ok .invalid => ⟨events, .ok ⟨problem.precision, .invalid⟩, slots⟩

end Rectangular

end LinearAssignment
