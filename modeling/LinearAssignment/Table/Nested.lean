import LinearAssignment.Table.Element

/-!
The tables that nested lists stand for.
-/
namespace LinearAssignment

inductive Nested where
  | element (e : Element)
  | list (entries : List Nested)

namespace Nested

/-- The dimensions of the table that a value stands for, taken along its first entries. -/
def shape : Nested → List Nat
  | element _ => []
  | list [] => [0]
  | list (x :: rest) => (rest.length + 1) :: x.shape

mutual

def elements? : List Nat → Nested → Option (List Element)
  | [], element e => some [e]
  | d :: ds, list entries => if entries.length = d then entriesElements? ds entries else none
  | _, _ => none

def entriesElements? (ds : List Nat) : List Nested → Option (List Element)
  | [] => some []
  | x :: rest => do return (← elements? ds x) ++ (← entriesElements? ds rest)

end

def textWidth : Element → Nat
  | .text s => s.length
  | .whole _ => 21
  | .real _ => 32
  | .complex .. => 64
  | .flag _ => 5
  | .absent => 0

/-- The type that holds whole numbers of at most 64 bits: words with a sign if these suffice,
words without if all of the numbers need these, and doubles if only some do. -/
def integerKind (zs : List Int) : ElementKind :=
  if zs.all fun z => z < Int.pow 2 63 then .signed 64
  else if zs.all fun z => Int.pow 2 63 ≤ z then .unsigned 64
  else .double

def isHuge (z : Int) : Bool := z < -Int.pow 2 63 || Int.pow 2 64 ≤ z

def commonKind (es : List Element) : ElementKind :=
  if es.any fun e => match e with | .absent => true | .whole z => isHuge z | _ => false then .object
  else if es.any fun e => e matches .text _ then .text ((es.map textWidth).foldl max 1)
  else if es.any fun e => e matches .complex .. then .doubleComplex
  else if es.isEmpty || es.any fun e => e matches .real _ then .double
  else if es.all fun e => e matches .flag _ then .boolean
  else integerKind (es.filterMap fun e => match e with | .whole z => some z | _ => none)

/-- An element as it is kept in a table of the given type. Among texts, a truth value and a
complex number become texts that denote no number. -/
def keep (kind : ElementKind) (e : Element) : Element :=
  match kind, e with
  | .double, e => .real (e.toNumber .double)
  | .text _, .flag b => .text (if b then "True" else "False")
  | .text _, .complex .. => .text "complex"
  | _, e => e

def maxDepth : Nat := 64

/-- The table that a value stands for, unless its lists are ragged or too deep. -/
def toTable? (x : Nested) : Option Table := do
  if maxDepth < x.shape.length then none
  let es ← x.elements? x.shape
  let kind := commonKind es
  return ⟨⟨kind, false⟩, x.shape, es.map (keep kind)⟩

end Nested

end LinearAssignment
