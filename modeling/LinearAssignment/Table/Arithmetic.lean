import LinearAssignment.Table.Element

/-!
Arithmetic on tables of numeric types: negation, transposition, and the difference of two
tables, of which a dimension of one stretches to the other's.
-/
namespace LinearAssignment

namespace ElementKind

def floats : List (ElementKind × Nat) := [(half, 8), (single, 16), (double, 64), (extended, 64)]

/-- The finest of the floating-point kinds that two numeric kinds need. A kind of words needs
one that has room for it. -/
def joinFloats (a b : ElementKind) : Option ElementKind :=
  let rank (k : ElementKind) : Option Nat :=
    match k with
    | signed bits | unsigned bits => floats.findIdx? fun f => bits ≤ f.2
    | boolean => some 0
    | k => floats.findIdx? fun f => f.1 = k
  match rank a, rank b with
  | some i, some j => (floats[max i j]?).map Prod.fst
  | _, _ => none

/-- The kind in which two kinds of numbers are subtracted. Words of 64 bits, of which only the
ones have a sign, have doubles in common; truth values have no difference. -/
def join? : ElementKind → ElementKind → Option ElementKind
  | boolean, boolean => none
  | boolean, k | k, boolean => joinFloats k k |>.map fun _ => k
  | signed a, signed b => some (signed (max a b))
  | unsigned a, unsigned b => some (unsigned (max a b))
  | signed a, unsigned b | unsigned b, signed a =>
    some (if b < a then signed a else if b < 64 then signed (2 * b) else double)
  | a, b => joinFloats a b

end ElementKind

namespace Element

def sub (kind : ElementKind) (x y : Element) : Element :=
  let difference (f : Format) : Element := .real ((x.toNumber f - y.toNumber f).convert .double)
  let value : Element → Int
    | whole z => z
    | flag b => b.toInt
    | _ => 0
  match kind with
  | .half => difference .half
  | .single => difference .single
  | .signed _ | .unsigned _ => .whole (kind.wrap (value x - value y))
  | _ => difference .double

def neg (kind : ElementKind) : Element → Except Failure Element
  | real x => .ok (.real (-x))
  | whole z => .ok (.whole (kind.wrap (-z)))
  | complex re im => .ok (.complex (-re) (-im))
  | flag _ | text _ | absent => .error .unsuitableType

end Element

def stretch? (a b : Nat) : Option Nat :=
  if a = b then some a else if a = 1 then some b else if b = 1 then some a else none

namespace Table

/-- The dimensions to which those of two tables stretch. They are matched from the last one on,
and missing ones count as one. Both lists are given in reverse. -/
def stretchShapes? : List Nat → List Nat → Option (List Nat)
  | [], ds => some ds
  | ds, [] => some ds
  | d :: ds, e :: es => do return (← stretch? d e) :: (← stretchShapes? ds es)

def stretchElements {α : Type} : List Nat → List Nat → List α → List α
  | d :: ds, e :: es, xs =>
    let size := ds.foldr (· * ·) 1
    let blocks := (List.range d).map fun i => (xs.drop (i * size)).take size
    let stretched := blocks.map (stretchElements ds es)
    if d = e then stretched.flatten else (List.replicate e stretched.flatten).flatten
  | _, _, xs => xs

def stretched (t : Table) (shape : List Nat) : List Element :=
  let missing := List.replicate (shape.length - t.shape.length) 1
  stretchElements (missing ++ t.shape) shape t.elements

def sub (s t : Table) : Except Failure Table := do
  let some kind := s.type.kind.join? t.type.kind | throw .unsuitableType
  let some reversed := stretchShapes? s.shape.reverse t.shape.reverse | throw .incompatibleShapes
  let shape := reversed.reverse
  let elements := List.zipWith (Element.sub kind) (s.stretched shape) (t.stretched shape)
  return ⟨⟨kind, false⟩, shape, elements⟩

def asColumn (t : Table) : Except Failure Table :=
  match t.shape with
  | d :: ds => .ok { t with shape := d :: 1 :: ds }
  | [] => .error .indexOutOfRange

def asRow (t : Table) : Except Failure Table :=
  match t.shape with
  | d :: ds => .ok { t with shape := 1 :: d :: ds }
  | [] => .error .indexOutOfRange

def reduced (cost u v : Table) : Except Failure Table := do
  (← cost.sub (← u.asColumn)).sub (← v.asRow)

def neg (t : Table) : Except Failure Table := do
  if t.type.kind = .boolean then throw .unsuitableType
  let elements ← t.elements.mapM (Element.neg t.type.kind)
  return { t with type := ⟨t.type.kind, false⟩, elements }

/-- A table of two dimensions in the orientation in which it has no more rows than columns, with
its elements negated if they are to be maximised, and whether it has been transposed. -/
def normalize (t : Table) (maximize : Bool) : Except Failure (Table × Bool) := do
  match t.shape with
  | [n, m] =>
    let upright :=
      if m < n then
        let entries := t.elements.toArray
        { t with shape := [m, n],
                 elements := (List.range m).flatMap fun j =>
                   (List.range n).filterMap fun i => entries[i * m + j]? }
      else t
    return (← if maximize then upright.neg else pure upright, m < n)
  | _ => throw .notAMatrix

/-- Whether numbers of the kind can be told to be NaN or infinite. -/
def isNumeric (t : Table) : Bool := (t.type.kind.join? .double).isSome

def isComplex (t : Table) : Bool :=
  match t.type.kind with
  | .singleComplex | .doubleComplex | .extendedComplex => true
  | _ => false

/-- Whether some element is NaN or negatively infinite. Complex numbers are not asked for their
sign, so only a NaN among them settles the question. -/
def hasInvalidElement (t : Table) : Except Failure Bool :=
  if t.isNumeric then .ok (t.elements.any Element.isInvalid)
  else if t.isComplex ∧ t.elements.any Element.isInvalid then .ok true
  else .error .unsuitableType

end Table

end LinearAssignment
