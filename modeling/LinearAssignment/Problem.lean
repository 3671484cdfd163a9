import LinearAssignment.Binary.Basic
import LinearAssignment.CostMatrix
import LinearAssignment.Decimal.Layout
import LinearAssignment.Failure
import LinearAssignment.Table.Element

/-!
Problems: the cost matrices that tables stand for.

A problem is solved in single or in double precision. Floating-point tables keep their
precision as far as these two go, whole numbers and truth values become doubles, and tables of
other types are refused unless the caller names a precision to convert them to.
-/
namespace LinearAssignment

inductive Precision where
  | single
  | double
  deriving DecidableEq

namespace Precision

def format : Precision → Format
  | single => .single
  | double => .double

abbrev Number (p : Precision) : Type := Binary p.format

def name : Precision → String
  | single => ElementKind.single.name
  | double => ElementKind.double.name

def join : Precision → Precision → Precision
  | single, single => single
  | _, _ => double

def ofKind? : ElementKind → Option Precision
  | .half | .single => some single
  | .double | .extended | .signed _ | .unsigned _ | .boolean => some double
  | _ => none

end Precision

structure Problem where
  precision : Precision
  rows : Nat
  columns : Nat
  cost : CostMatrix precision.Number rows columns

namespace Problem

/-- The problem whose entries, row by row, are given, if there are as many of them as the
dimensions ask for. -/
def ofEntries? (p : Precision) (n m : Nat) (entries : List p.Number) : Option Problem :=
  if h : entries.length = n * m then
    some ⟨p, n, m, .ofEntries n m ⟨entries.toArray, by simpa using h⟩⟩
  else none

end Problem

inductive Dimension where
  | whole (z : Int)
  | real (x : Binary .double)
  | flag (b : Bool)

namespace Dimension

/-- The whole number that a dimension stands for; a fraction is dropped. -/
def value : Dimension → Except Failure Int
  | whole z => .ok z
  | real x =>
    if x.isNaN then .error .notANumber
    else
      match x.truncate? with
      | some z => .ok z
      | none => .error .outOfRange
  | flag b => .ok (if b then 1 else 0)

def text : Dimension → String
  | whole z => toString z
  | real x => x.text
  | flag b => if b then "True" else "False"

/-- The two dimensions of a shape. Of a shape of any other length, no more than the first three
are looked at. -/
def pair (shape : List Dimension) : Except Failure (Int × Int) := do
  match ← (shape.take 3).mapM value with
  | [n, m] => return (n, m)
  | _ => throw .shapeNotAPair

end Dimension

namespace Table

def convert (t : Table) (p : Precision) : Except Failure (List p.Number) :=
  t.elements.mapM fun e => e.convert t.type.kind p.format

/-- The precision to solve a table in: the named one, or else the one of its type. -/
def targetPrecision (t : Table) (requested : Option String) : Except Failure Precision :=
  match requested with
  | none =>
    match Precision.ofKind? t.type.kind with
    | some p => .ok p
    | none => .error (.violation (.unsupportedElements t.type))
  | some name =>
    match ElementType.ofName? name with
    | none => .error .unknownElementType
    | some ⟨.single, false⟩ => .ok .single
    | some ⟨.double, false⟩ => .ok .double
    | some other => .error (.violation (.notACostType other))

def reshape (p : Precision) (entries : List p.Number) (shape : List Dimension) :
    Except Failure Problem := do
  let (n, m) ← Dimension.pair shape
  if n < 0 ∨ m < 0 then
    throw (.violation (.invalidShape (shapeText (shape.map Dimension.text))))
  match Problem.ofEntries? p n.toNat m.toNat entries with
  | some problem => return problem
  | none => throw (.violation (.sizeMismatch entries.length n.toNat m.toNat))

/-- The cost matrix that a table stands for: a table of two dimensions, or the entries of any
table in the shape that the caller asks for. -/
def toProblem (t : Table) (shape : Option (List Dimension)) (requested : Option String) :
    Except Failure Problem := do
  let p ← t.targetPrecision requested
  let entries ← t.convert p
  match shape with
  | some dimensions => reshape p entries dimensions
  | none =>
    match t.shape with
    | [n, m] =>
      match Problem.ofEntries? p n m entries with
      | some problem => .ok problem
      | none => .error .notAMatrix
    | other => .error (.violation (.notTwoDimensional other.length))

end Table

end LinearAssignment
