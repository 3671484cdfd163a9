import LinearAssignment.Certificate
import LinearAssignment.Table.Threshold

/-!
Totals and certificates for matrices and potentials of either precision. A single potential stands
for as many equal ones as are needed.
-/
namespace LinearAssignment

structure Potentials where
  precision : Precision
  values : List precision.Number

namespace Potentials

/-- The potentials as `k` values of a precision; a single one is repeated. -/
def toVector? (u : Potentials) (p : Precision) (k : Nat) : Option (Vector (p.Number) k) :=
  let values := u.values.map fun x => x.convert p.format
  let values := match values with
    | [x] => List.replicate k x
    | xs => xs
  if h : values.length = k then some ⟨values.toArray, by simpa using h⟩ else none

end Potentials

namespace Problem

/-- The tolerance of a certificate: relative to the largest magnitude, which counts as one at
least, and to the larger dimension. -/
def tolerance (problem : Problem) (magnitude : problem.precision.Number)
    (relative : Binary .double) : Binary .double :=
  let magnitude := magnitude.convert .double
  let scale := if (.ofInt 1 : Binary .double) < magnitude then magnitude else .ofInt 1
  relative * scale * .ofInt (max problem.rows problem.columns)

/-- Whether potentials certify an assignment. A matrix without finite entries needs no
certificate, and the pairs are looked at only if no reduced cost is negative. Potentials to which
the matrix would have to stretch leave no reduced costs of its own dimensions. -/
def isDualFeasible (problem : Problem) (columns : List (Option Nat)) (u v : Potentials)
    (relative : Binary .double) : Except Failure Bool :=
  match problem.cost.magnitude? with
  | none => .ok true
  | some magnitude =>
    let p := problem.precision.join u.precision
    let q := p.join v.precision
    match u.toVector? p problem.rows, v.toVector? q problem.columns with
    | some u, some v =>
      let lessRows := (problem.cost.mapEntries fun x => x.convert p.format).lessRows u
      let reduced := (lessRows.mapEntries fun x => x.convert q.format).lessColumns v
      let tolerance := (problem.tolerance magnitude relative).convert q.format
      if problem.cost.isFeasible reduced tolerance then
        match reduced.matched? columns with
        | some matched => .ok (CostMatrix.isTight matched tolerance)
        | none => .error .indexOutOfRange
      else .ok false
    | _, _ =>
      match stretch? problem.rows u.values.length, stretch? problem.columns v.values.length with
      | some _, some _ => .error .indexOutOfRange
      | _, _ => .error .incompatibleShapes

def total (problem : Problem) (columns : List (Option Nat)) :
    Except Failure problem.precision.Number :=
  match problem.cost.matched? columns with
  | some xs => .ok (Cost.sum xs)
  | none => .error .indexOutOfRange

end Problem

/-- The total cost of an assignment of a table, which has two dimensions at least. Numbers of half
precision are added in single precision, and their sum is rounded to half precision again. -/
def Table.total (t : Table) (columns : List (Option Nat)) : Except Failure (Binary .double) := do
  if t.shape.length < 2 then throw .indexOutOfRange
  let sum ← (← t.matrix).total columns
  return match t.type.kind with
    | .half => (sum.convert .half).convert .double
    | _ => sum.convert .double

end LinearAssignment
