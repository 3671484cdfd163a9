import LinearAssignment.Table.Scalar

/-!
Output buffers: tables of the caller that receive the two halves of an assignment, and the slots
that hold them by name.

Two outputs of a solver may name one slot. The first is written before the second, and what a
solver returns is read back from the slots. Slots have no memory in common: two outputs that
share a part of their memory and are not the same lie outside this model.
-/
namespace LinearAssignment

structure Buffer extends Table where
  writable : Bool

inductive Output where
  | buffer (b : Buffer)
  /-- Something that is no table. -/
  | other

namespace Buffer

/-- Overwrites the contents of a buffer of words, which keep the low bits of what is written. -/
def write (b : Buffer) (values : List Int) : Buffer :=
  { b with elements := values.map fun z => .whole (b.type.kind.wrap z) }

def contents (b : Buffer) : List Int :=
  b.elements.filterMap fun e => match e with
    | .whole z => some z
    | _ => none

def holdsWords (b : Buffer) : Bool :=
  match b.type.kind with
  | .signed _ | .unsigned _ => true
  | _ => false

theorem contents_write (b : Buffer) (values : List Int) :
    (b.write values).contents = values.map b.type.kind.wrap := by
  rw [contents, write, List.filterMap_map]
  exact congrFun List.filterMap_eq_map values

end Buffer

namespace Output

/-- Accepts a writable table of one dimension, the given size and signed words. -/
def check (role : OutputRole) (size : Nat) : Output → Except Violation Buffer
  | other => .error (.outputNotATable role)
  | buffer b =>
    if b.shape ≠ [size] then .error (.outputShape role size b.shape)
    else
      match b.type.kind with
      | .signed _ => if b.writable then .ok b else .error (.outputReadOnly role)
      | _ => .error (.outputType role b.type)

def checkPair (outputs : List Output) (sizes : Nat × Nat) :
    Except Violation (Buffer × Buffer) :=
  match outputs with
  | [first, second] => do
    let a ← check .first sizes.1 first
    let b ← check .second sizes.2 second
    return (a, b)
  | _ => .error (.outputCount outputs.length)

def write (values : List Int) : Output → Output
  | buffer b => buffer (b.write values)
  | other => other

end Output

abbrev Slots : Type := List (String × Output)

namespace Slots

def output (slots : Slots) (name : String) : Output := (slots.lookup name).getD .other

def write (slots : Slots) (name : String) (values : List Int) : Slots :=
  slots.map fun slot => if slot.1 = name then (name, slot.2.write values) else slot

def contents (slots : Slots) (name : String) : List Int :=
  match slots.output name with
  | .buffer b => b.contents
  | .other => []

/-- Writes the two halves of an assignment to the outputs, if there are any, and reads them
back. -/
def deliver (slots : Slots) (names : Option (String × String)) (halves : List Int × List Int) :
    Slots × (List Int × List Int) :=
  match names with
  | none => (slots, halves)
  | some (first, second) =>
    let slots := (slots.write first halves.1).write second halves.2
    (slots, (slots.contents first, slots.contents second))

def accept (slots : Slots) (names : Option (List String)) (sizes : Nat × Nat) :
    Except Failure (Option (String × String)) :=
  match names with
  | none => .ok none
  | some names =>
    match Output.checkPair (names.map slots.output) sizes, names with
    | .ok _, [first, second] => .ok (some (first, second))
    | .ok _, _ => .error (.violation (.outputCount names.length))
    | .error v, _ => .error (.violation v)

end Slots

end LinearAssignment
