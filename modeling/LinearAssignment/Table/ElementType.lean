/-!
The element types of numeric tables and their names.
-/
namespace LinearAssignment

inductive ElementKind where
  | half
  | single
  | double
  /-- More than double precision; its elements here are doubles. -/
  | extended
  | signed (bits : Nat)
  | unsigned (bits : Nat)
  | boolean
  | singleComplex
  | doubleComplex
  | extendedComplex
  /-- Text of at most so many characters. -/
  | text (width : Nat)
  /-- Byte strings of at most so many bytes. -/
  | bytes (width : Nat)
  /-- Elements of any kind. -/
  | object
  /-- Points in time, counted in a unit. -/
  | instant (unit : String)
  /-- Spans of time, counted in a unit. -/
  | duration (unit : String)
  /-- So many bytes of no kind. -/
  | rawBytes (width : Nat)
  /-- Text of any length. -/
  | freeText
  deriving DecidableEq

/-- A kind of elements and whether their bytes are stored in the reverse of the usual order. -/
structure ElementType where
  kind : ElementKind
  swapped : Bool := false
  deriving DecidableEq

namespace ElementKind

def unitText (unit : String) : String := if unit.isEmpty then "" else "[" ++ unit ++ "]"

def name : ElementKind → String
  | half => "float16"
  | single => "float32"
  | double => "float64"
  | extended => "float128"
  | signed bits => "int" ++ toString bits
  | unsigned bits => "uint" ++ toString bits
  | boolean => "bool"
  | singleComplex => "complex64"
  | doubleComplex => "complex128"
  | extendedComplex => "complex256"
  | text width => "<U" ++ toString width
  | bytes width => "|S" ++ toString width
  | object => "object"
  | instant unit => "datetime64" ++ unitText unit
  | duration unit => "timedelta64" ++ unitText unit
  | rawBytes width => "|V" ++ toString width
  | freeText => "StringDType()"

/-- The name of the kind without a mark of its byte order, if its elements have such an order. -/
def orderedName? : ElementKind → Option String
  | half => some "f2"
  | single => some "f4"
  | double => some "f8"
  | extended => some "f16"
  | signed bits => if bits = 8 then none else some ("i" ++ toString (bits / 8))
  | unsigned bits => if bits = 8 then none else some ("u" ++ toString (bits / 8))
  | singleComplex => some "c8"
  | doubleComplex => some "c16"
  | extendedComplex => some "c32"
  | text width => some ("U" ++ toString width)
  | instant unit => some ("M8" ++ unitText unit)
  | duration unit => some ("m8" ++ unitText unit)
  | boolean | bytes _ | object | rawBytes _ | freeText => none

def named : List (String × ElementKind) :=
  [("half", half), ("float16", half), ("single", single), ("float32", single),
   ("double", double), ("float", double), ("float64", double),
   ("longdouble", extended), ("float128", extended),
   ("int8", signed 8), ("byte", signed 8), ("int16", signed 16), ("short", signed 16),
   ("int32", signed 32), ("intc", signed 32), ("int64", signed 64), ("int", signed 64),
   ("int_", signed 64), ("long", signed 64), ("longlong", signed 64), ("intp", signed 64),
   ("uint8", unsigned 8), ("ubyte", unsigned 8), ("uint16", unsigned 16),
   ("ushort", unsigned 16), ("uint32", unsigned 32), ("uintc", unsigned 32),
   ("uint64", unsigned 64), ("uint", unsigned 64), ("ulong", unsigned 64),
   ("ulonglong", unsigned 64), ("uintp", unsigned 64),
   ("bool", boolean), ("bool_", boolean),
   ("complex64", singleComplex), ("csingle", singleComplex),
   ("complex128", doubleComplex), ("complex", doubleComplex), ("cdouble", doubleComplex),
   ("complex256", extendedComplex), ("clongdouble", extendedComplex),
   ("str", text 0), ("str_", text 0), ("bytes", bytes 0), ("bytes_", bytes 0),
   ("object", object), ("object_", object), ("void", rawBytes 0),
   ("datetime64", instant ""), ("timedelta64", duration "")]

def lettered : List (String × ElementKind) :=
  [("e", half), ("f", single), ("d", double), ("g", extended),
   ("b", signed 8), ("h", signed 16), ("i", signed 32), ("l", signed 64), ("q", signed 64),
   ("p", signed 64), ("n", signed 64),
   ("B", unsigned 8), ("H", unsigned 16), ("I", unsigned 32), ("L", unsigned 64),
   ("Q", unsigned 64), ("P", unsigned 64), ("N", unsigned 64),
   ("?", boolean), ("F", singleComplex), ("D", doubleComplex), ("G", extendedComplex),
   ("U", text 0), ("S", bytes 0), ("c", bytes 1), ("O", object), ("V", rawBytes 0),
   ("M", instant ""), ("m", duration ""), ("T", freeText)]

def sized : List (String × ElementKind) :=
  [("f2", half), ("f4", single), ("f8", double), ("f16", extended),
   ("i1", signed 8), ("i2", signed 16), ("i4", signed 32), ("i8", signed 64),
   ("u1", unsigned 8), ("u2", unsigned 16), ("u4", unsigned 32), ("u8", unsigned 64),
   ("b1", boolean), ("c8", singleComplex), ("c16", doubleComplex), ("c32", extendedComplex),
   ("O8", object), ("M8", instant ""), ("m8", duration "")]

/-- The kind of a name that states how long texts or byte strings may be. -/
def ofLength? (name : String) : Option ElementKind :=
  match name.toList with
  | letter :: digits =>
    if digits.isEmpty ∨ ¬ digits.all Char.isDigit then none
    else
      match letter with
      | 'U' => (String.ofList digits).toNat?.map text
      | 'S' => (String.ofList digits).toNat?.map bytes
      | 'V' => (String.ofList digits).toNat?.map rawBytes
      | _ => none
  | [] => none

def units : List String :=
  ["Y", "M", "W", "D", "h", "m", "s", "ms", "us", "ns", "ps", "fs", "as"]

/-- A unit of time with the number of them that are counted as one, if it is not one. -/
def readUnit? (cs : List Char) : Option String :=
  let unit := String.ofList (cs.dropWhile Char.isDigit)
  let digits := cs.takeWhile Char.isDigit
  if ¬ units.contains unit then none
  else if digits.isEmpty then some unit
  else
    match (String.ofList digits).toNat? with
    | some 0 | none => none
    | some 1 => some unit
    | some k => some (toString k ++ unit)

def ofUnit? (name : String) : Option ElementKind :=
  let stem := name.toList.takeWhile (· ≠ '[')
  match (name.toList.dropWhile (· ≠ '[')).drop 1, stem with
  | [], _ => none
  | unit, stem =>
    if unit.getLast? ≠ some ']' then none
    else
      match readUnit? unit.dropLast, String.ofList stem with
      | some unit, "datetime64" | some unit, "M8" => some (instant unit)
      | some unit, "timedelta64" | some unit, "m8" => some (duration unit)
      | _, _ => none

def ofShortName? (name : String) : Option ElementKind :=
  (((lettered.lookup name).or (sized.lookup name)).or (ofLength? name)).or (ofUnit? name)

/-- The whole numbers that a word of the kind holds, from the first up to, but not including, the
second. -/
def range? : ElementKind → Option (Int × Int)
  | signed bits => some (-Int.pow 2 (bits - 1), Int.pow 2 (bits - 1))
  | unsigned bits => some (0, Int.pow 2 bits)
  | _ => none

/-- The whole number that a word of the kind keeps of `z`: the one that has the same low bits. -/
def wrap (kind : ElementKind) (z : Int) : Int :=
  match kind with
  | signed bits => z.bmod (Nat.pow 2 bits)
  | unsigned bits => z % Int.pow 2 bits
  | _ => z

end ElementKind

namespace ElementType

/-- The name of a type. A reversed byte order is stated by a mark in front. -/
def name (t : ElementType) : String :=
  match t.kind.orderedName? with
  | some short => if t.swapped then ">" ++ short else t.kind.name
  | none => t.kind.name

def ofName? (name : String) : Option ElementType :=
  match name.toList with
  | mark :: rest =>
    let short := ElementKind.ofShortName? (String.ofList rest)
    if mark = '>' then short.map fun k => ⟨k, k.orderedName?.isSome⟩
    else if mark = '<' ∨ mark = '=' ∨ mark = '|' then short.map fun k => ⟨k, false⟩
    else ((ElementKind.named.lookup name).or (ElementKind.ofShortName? name)).map (⟨·, false⟩)
  | [] => none

end ElementType

end LinearAssignment
