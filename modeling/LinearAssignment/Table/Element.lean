import LinearAssignment.Binary.Basic
import LinearAssignment.Decimal.Reading
import LinearAssignment.Failure

/-!
Elements of tables, and tables of any dimension.
-/
namespace LinearAssignment

inductive Element where
  /-- A number with a fraction; half and single precision numbers are doubles too. -/
  | real (x : Binary .double)
  | whole (z : Int)
  | flag (b : Bool)
  | complex (re im : Binary .double)
  | text (s : String)
  | absent

namespace Element

/-- The number of the format nearest to an element of a numeric type. A complex number loses
its imaginary part. -/
def toNumber (f : Format) : Element → Binary f
  | real x => x.convert f
  | whole z => .ofInt z
  | flag b => .ofInt (if b then 1 else 0)
  | complex re _ => re.convert f
  | text _ | absent => .nan

/-- The number of the format nearest to the double that an element denotes. A text denotes what
it reads as, and an absent element is NaN. -/
def readNumber (f : Format) : Element → Except Failure (Binary f)
  | text s =>
    match (Binary.read? s : Option (Binary .double)) with
    | some x => .ok (x.convert f)
    | none => .error .notANumber
  | complex .. => .error .unsuitableType
  | whole z =>
    if (Binary.ofInt z : Binary .double).isFinite then
      .ok ((Binary.ofInt z : Binary .double).convert f)
    else .error .outOfRange
  | e => .ok ((e.toNumber .double).convert f)

def convert (kind : ElementKind) (f : Format) (e : Element) : Except Failure (Binary f) :=
  match kind with
  | .text _ | .object => e.readNumber f
  | _ => .ok (e.toNumber f)

/-- Whether an element of a numeric type is NaN or, which complex numbers never are, negatively
infinite. -/
def isInvalid : Element → Bool
  | complex re im => re.isNaN || im.isNaN
  | e => Cost.isInvalid (e.toNumber .double)

def isFinite : Element → Bool
  | complex re im => re.isFinite && im.isFinite
  | e => (e.toNumber .double).isFinite

end Element

namespace ElementKind

/-- A number truncated by way of a word with a sign, in which every number that the word cannot
hold counts as its lowest one. -/
def truncateToWord {f : Format} (bits : Nat) (x : Binary f) : Int :=
  let lowest : Int := -Int.pow 2 (bits - 1)
  match x.truncate? with
  | some z => if lowest ≤ z ∧ z < -lowest then z else lowest
  | none => lowest

/-- A number as an element of the given kind. A whole number that is too large for its kind
keeps the low bits of a word that is wide enough. -/
def cast {f : Format} (kind : ElementKind) (x : Binary f) : Element :=
  match kind with
  | half => .real ((x.convert .half).convert .double)
  | single => .real ((x.convert .single).convert .double)
  | signed bits => .whole (kind.wrap (truncateToWord (max 32 bits) x))
  | unsigned bits => .whole (kind.wrap (truncateToWord (max 32 (2 * bits)) x))
  | boolean => .flag (x != 0)
  | singleComplex => .complex ((x.convert .single).convert .double) 0
  | doubleComplex | extendedComplex => .complex (x.convert .double) 0
  | _ => .real (x.convert .double)

def ofWhole (kind : ElementKind) (z : Int) : Element :=
  if kind = boolean then .flag (z ≠ 0) else .whole (kind.wrap z)

end ElementKind

/-- A table: its type, its dimensions and its elements in row-major order. -/
structure Table where
  type : ElementType
  shape : List Nat
  elements : List Element

namespace Table

def ofElements (type : ElementType) (shape : List Int) (elements : List Element) :
    Except Failure Table :=
  if shape.any (· < 0) then .error .negativeDimension
  else if (shape.map Int.toNat).foldr (· * ·) 1 ≠ elements.length then .error .wrongElementCount
  else .ok ⟨type, shape.map Int.toNat, elements⟩

/-- The position that an index stands for. A negative index counts from the end. -/
def position? (size : Nat) (i : Int) : Option Nat :=
  let i := if i < 0 then i + size else i
  if 0 ≤ i ∧ i < size then some i.toNat else none

end Table

end LinearAssignment
