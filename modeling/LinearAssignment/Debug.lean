import LinearAssignment.Text

/-!
The debug switch: a text of the environment that is read once and then remembered.
-/
namespace LinearAssignment

structure DebugSwitch where
  setting : Option String := none
  remembered : Option Bool := none

namespace DebugSwitch

/-- Whether a setting turns debugging on. Letters count without their case; only letters of the
basic alphabet occur in the four words, and no other letter has one of theirs as lower case. -/
def isOn (setting : String) : Bool :=
  let word := String.ofList ((Text.trim setting.toList).map Char.toLower)
  ["1", "true", "yes", "on"].contains word

def check (s : DebugSwitch) : Bool × DebugSwitch :=
  match s.remembered with
  | some on => (on, s)
  | none =>
    let on := isOn (s.setting.getD "")
    (on, { s with remembered := some on })

def forget (s : DebugSwitch) : DebugSwitch := { s with remembered := none }

end DebugSwitch

inductive Tracer where
  /-- To the observer of the caller. -/
  | own
  /-- To the standard output, line by line. -/
  | print
  | none
  deriving DecidableEq

namespace Tracer

def name : Tracer → String
  | own => "own"
  | print => "print"
  | none => "none"

/-- An observer of the caller comes first; the debug switch is not looked at then. -/
def resolve (own : Bool) (s : DebugSwitch) : Tracer × DebugSwitch :=
  if own then (.own, s)
  else
    let (on, s) := s.check
    (if on then .print else .none, s)

end Tracer

end LinearAssignment
