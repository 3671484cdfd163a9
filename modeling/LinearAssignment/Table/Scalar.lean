import LinearAssignment.Decimal.Layout
import LinearAssignment.Table.Element

/-!
Single numbers as the caller writes them, and how tables take them in.

A number with a fraction becomes what the elements of the table can hold of it. A whole number
has to fit: it is refused by words that are too narrow for it.
-/
namespace LinearAssignment

inductive Scalar where
  | whole (z : Int)
  | real (x : Binary .double)

namespace Scalar

def text : Scalar → String
  | whole z => toString z
  | real x => x.text

def isFinite : Scalar → Bool
  | whole _ => true
  | real x => x.isFinite

def isZero : Scalar → Bool
  | whole z => z = 0
  | real x => x == 0

/-- The double nearest to a number, unless it is a whole number beyond all doubles. -/
def checkedDouble : Scalar → Except Failure (Binary .double)
  | whole z =>
    if (Binary.ofInt z : Binary .double).isFinite then .ok (.ofInt z) else .error .outOfRange
  | real x => .ok x

def wholeElement (kind : ElementKind) (z : Int) : Except Failure Element :=
  match kind.range? with
  | some (low, high) => if low ≤ z ∧ z < high then .ok (.whole z) else .error .outOfRange
  | none => .ok (.whole z)

def truncateWithin (low high : Int) (x : Binary .double) : Except Failure Int :=
  if x.isNaN then .error .notANumber
  else
    match x.truncate? with
    | some z => if low ≤ z ∧ z < high then .ok z else .error .outOfRange
    | none => .error .outOfRange

def looseElement (kind : ElementKind) (s : Scalar) : Except Failure Element :=
  match kind, s with
  | .boolean, s => .ok (.flag (!s.isZero))
  | .text width, s => .ok (.text (String.ofList (s.text.toList.take width)))
  | .object, .whole z => .ok (.whole z)
  | .object, .real x => .ok (.real x)
  | .bytes _, _ | .instant _, _ | .duration _, _ | .rawBytes _, _ | .freeText, _ =>
    .error .notANumber
  | kind, s => s.checkedDouble.map kind.cast

/-- The element that an entry of a table becomes when a number is assigned to it. The whole part
of a number with a fraction has to fit into the words of the processor; a narrower word keeps
its low bits. -/
def assigned (kind : ElementKind) (s : Scalar) : Except Failure Element :=
  match kind, s with
  | .signed _, .whole z | .unsigned _, .whole z => wholeElement kind z
  | .signed _, .real x => do
    return .whole (kind.wrap (← truncateWithin (-Int.pow 2 63) (Int.pow 2 63) x))
  | .unsigned bits, .real x => do
    let high : Int := if 32 ≤ bits then Int.pow 2 64 else Int.pow 2 63
    return .whole (kind.wrap (← truncateWithin (-Int.pow 2 63) high x))
  | kind, s => looseElement kind s

def filling (kind : ElementKind) (s : Scalar) : Except Failure Element :=
  match kind, s with
  | .signed _, .whole z | .unsigned _, .whole z => wholeElement kind z
  | .signed _, .real x | .unsigned _, .real x => .ok (kind.cast x)
  | kind, s => looseElement kind s

end Scalar

namespace Table

def widen (type : ElementType) : ElementType :=
  match type.kind with
  | .text 0 => { type with kind := .text 1 }
  | .bytes 0 => { type with kind := .bytes 1 }
  | _ => type

def filled (type : ElementType) (shape : List Int) (s : Scalar) : Except Failure Table := do
  if shape.any (· < 0) then throw .negativeDimension
  let type := widen type
  let e ← s.filling type.kind
  ofElements type shape (List.replicate ((shape.map Int.toNat).foldr (· * ·) 1) e)

/-- The table after a number has been assigned to an entry or, in a table of more than two
dimensions, to all entries that the two indices leave. -/
def assign (t : Table) (i j : Int) (s : Scalar) : Except Failure Table :=
  match t.shape with
  | n :: m :: rest =>
    match position? n i, position? m j with
    | some i, some j => do
      let e ← s.assigned t.type.kind
      let size := rest.foldr (· * ·) 1
      let start := (i * m + j) * size
      return { t with elements :=
        t.elements.take start ++ List.replicate size e ++ t.elements.drop (start + size) }
    | _, _ => .error .indexOutOfRange
  | _ => .error .indexOutOfRange

end Table

end LinearAssignment
