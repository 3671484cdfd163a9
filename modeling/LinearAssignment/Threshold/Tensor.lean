import LinearAssignment.Problem
import LinearAssignment.Table.Scalar
import LinearAssignment.Threshold.Gate

/-!
Tensors: the tables of costs that assigners take, how their elements are compared with a
threshold, and how they become costs.
-/
namespace LinearAssignment

inductive TensorType where
  | half
  | brain
  | single
  | double
  | signed (bits : Nat)
  | unsigned (bits : Nat)
  | boolean
  /-- Complex numbers with parts of a precision. -/
  | complex (p : Precision)
  deriving DecidableEq

namespace TensorType

def name : TensorType → String
  | half => "float16"
  | brain => "bfloat16"
  | single => "float32"
  | double => "float64"
  | signed bits => (ElementKind.signed bits).name
  | unsigned bits => (ElementKind.unsigned bits).name
  | boolean => "bool"
  | complex .single => "complex64"
  | complex .double => "complex128"

def ofName? (name : String) : Option TensorType :=
  let types := [half, brain, single, double, boolean, complex .single, complex .double] ++
    [8, 16, 32, 64].map signed ++ [8, 16, 32, 64].map unsigned
  types.find? fun t => t.name = name

/-- The format in which elements are compared with a threshold that is no whole number. -/
def format : TensorType → Format
  | half => .half
  | brain => .brain
  | single => .single
  | double => .double
  | signed _ | unsigned _ | boolean => .single
  | complex p => p.format

/-- The elements of a type. Of a complex number, the real part is kept. -/
def Value : TensorType → Type
  | half => Binary .half
  | brain => Binary .brain
  | single => Binary .single
  | double => Binary .double
  | signed _ | unsigned _ => Int
  | boolean => Bool
  | complex p => Binary p.format

def toBinary : (t : TensorType) → t.Value → Binary t.format
  | half, x => x
  | brain, x => x
  | single, x => x
  | double, x => x
  | signed _, z => .ofInt z
  | unsigned _, z => .ofInt z
  | boolean, b => .ofInt (Bool.toInt b)
  | complex _, x => x

def precision : TensorType → Precision
  | double => .double
  | _ => .single

def toNumber (t : TensorType) (x : t.Value) : t.precision.Number :=
  (t.toBinary x).convert t.precision.format

/-- A double rounded to a format. The short formats are reached by way of single precision. -/
def roundTo (f : Format) (x : Binary .double) : Binary f :=
  if f = .double then x.convert f else (x.convert .single).convert f

/-- A number rounded to a format. A whole number is not made a double first. -/
def roundScalar (f : Format) : Scalar → Binary f
  | .whole z => if f = .double then .ofInt z else (.ofInt z : Binary .single).convert f
  | .real x => roundTo f x

end TensorType

def TensorType.elements? (t : TensorType) (es : List Element) : Option (List t.Value) :=
  es.mapM fun e =>
    match t with
    | .half => some (TensorType.roundTo .half (e.toNumber .double))
    | .brain => some (TensorType.roundTo .brain (e.toNumber .double))
    | .single => some (e.toNumber .single)
    | .double => some (e.toNumber .double)
    | .signed _ | .unsigned _ =>
      match e with
      | .whole z => some z
      | _ => none
    | .boolean =>
      match e with
      | .flag b => some b
      | .whole z => some (z != 0)
      | _ => none
    | .complex p => some (e.toNumber p.format)

structure Tensor where
  type : TensorType
  shape : List Nat
  elements : List type.Value

namespace Tensor

def typeOfKind? : ElementKind → Option TensorType
  | .half => some .half
  | .single => some .single
  | .double => some .double
  | .signed bits => some (.signed bits)
  | .unsigned bits => some (.unsigned bits)
  | .boolean => some .boolean
  | .singleComplex => some (.complex .single)
  | .doubleComplex => some (.complex .double)
  | _ => none

def ofTable (t : Table) : Except Failure Tensor :=
  match typeOfKind? t.type.kind with
  | none => .error .unsuitableType
  | some type =>
    if t.type.swapped then .error .reversedByteOrder
    else
      match type.elements? t.elements with
      | some elements => .ok ⟨type, t.shape, elements⟩
      | none => .error .notANumber

def numbers (t : Tensor) : List t.type.precision.Number := t.elements.map t.type.toNumber

end Tensor

namespace TensorType

/-- Whether a whole number can be compared with the elements of a tensor at all. -/
def isComparable (z : Int) : Bool := -Int.pow 2 63 ≤ z && z < Int.pow 2 64

/-- The whole number that stands for a threshold among words of the given kind, if such words
are ever compared with whole numbers: short words without a sign are, long ones are not. -/
def wordThreshold (t : TensorType) (z : Int) : Except Failure Int :=
  match t with
  | signed bits => .ok ((ElementKind.signed bits).wrap z)
  | unsigned 8 => .ok ((ElementKind.unsigned 8).wrap z)
  | boolean => if z < Int.pow 2 63 then .ok z else .error .notImplemented
  | _ => .error .notImplemented

def isBelowNumber (t : TensorType) (y : Scalar) (x : t.Value) : Bool :=
  t.toBinary x < roundScalar t.format y

/-- Whether the elements of a type are below a threshold. Whole numbers are compared as words of
the type, of which a threshold keeps the low bits, unless the threshold has a fraction. Complex
numbers have no order. -/
def isBelow : (t : TensorType) → Scalar → Except Failure (t.Value → Bool)
  | signed bits, .whole z => do
    let z ← (signed bits).wordThreshold z
    return fun x : Int => x < z
  | unsigned bits, .whole z => do
    let z ← (unsigned bits).wordThreshold z
    return fun x : Int => x < z
  | boolean, .whole z => do
    let z ← boolean.wordThreshold z
    return fun b : Bool => b.toInt < z
  | complex _, _ => .error .notImplemented
  | t, y => .ok (t.isBelowNumber y)

end TensorType

namespace Tensor

def gated (t : Tensor) (threshold : Scalar) :
    Except Failure (List t.type.precision.Number) := do
  if let .whole z := threshold then
    unless TensorType.isComparable z do throw .outOfRange
  let isBelow ← t.type.isBelow threshold
  return t.elements.map fun x =>
    if (t.type.toBinary x).isFinite && isBelow x then t.type.toNumber x else .infinity

/-- The elements at pairs of indices; in a tensor of more than two dimensions, all elements that
a pair leaves. -/
def gather (t : Tensor) (pairs : List (Int × Int)) : Except Failure (List t.type.Value) :=
  match t.shape with
  | n :: m :: rest =>
    let size := rest.foldr (· * ·) 1
    let block? (pair : Int × Int) : Option (List t.type.Value) := do
      let i ← Table.position? n pair.1
      let j ← Table.position? m pair.2
      return (t.elements.drop ((i * m + j) * size)).take size
    match pairs.mapM block? with
    | some blocks => .ok blocks.flatten
    | none => .error .indexOutOfRange
  | _ => .error .indexOutOfRange

/-- A sum of elements: a number of their format, or a whole number of 64 bits. -/
inductive Total (f : Format) where
  | number (x : Binary f)
  | whole (z : Int)

def shortSum {f : Format} (xs : List (Binary f)) : Binary f :=
  (xs.foldl (fun s x => s + x.convert .single) (0 : Binary .single)).convert f

def wholeSum {f : Format} (zs : List Int) : Total f :=
  .whole ((ElementKind.signed 64).wrap (zs.foldr (· + ·) 0))

def sum : (t : TensorType) → List t.Value → Total t.format
  | .half, xs => .number (shortSum xs)
  | .brain, xs => .number (shortSum xs)
  | .single, xs => .number (shortSum xs)
  | .double, xs => .number (xs.foldl Binary.add .zero)
  | .signed _, zs => wholeSum zs
  | .unsigned _, zs => wholeSum zs
  | .boolean, bs => wholeSum (bs.map Bool.toInt)
  | .complex .single, xs => .number (shortSum xs)
  | .complex .double, xs => .number (xs.foldl Binary.add .zero)

end Tensor

end LinearAssignment
