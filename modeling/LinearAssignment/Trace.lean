import LinearAssignment.Decimal.Layout
import LinearAssignment.Dense.Solver
import LinearAssignment.Rectangular.Completion
import LinearAssignment.Text

/-!
Traces: the events of a solver as named fields, and the lines that they are printed as.
-/
namespace LinearAssignment

inductive TraceValue where
  | text (s : String)
  | whole (z : Int)
  | flag (b : Bool)
  | real {f : Format} (x : Binary f)
  | nothing

/-- The text of a value. A number is written as the double that it equals, so its text shows the
digits that single precision would leave out. -/
def TraceValue.toText : TraceValue → String
  | text s => s
  | whole z => toString z
  | flag b => if b then "True" else "False"
  | real x => (x.convert .double).text
  | nothing => "None"

structure TraceRecord where
  event : String
  fields : List (String × TraceValue)

namespace TraceRecord

/-- Sets a field. A field that is there keeps its place and takes the new value. -/
def setField (fields : List (String × TraceValue)) (name : String) (value : TraceValue) :
    List (String × TraceValue) :=
  if fields.any fun field => field.1 = name then
    fields.map fun field => if field.1 = name then (name, value) else field
  else fields ++ [(name, value)]

/-- The record with the given fields, of which each name is kept once. -/
def ofFields (event : String) (fields : List (String × TraceValue)) : TraceRecord :=
  ⟨event, fields.foldl (fun kept field => setField kept field.1 field.2) []⟩

def text (r : TraceRecord) : String :=
  let fields := r.fields.map fun field => field.1 ++ "=" ++ field.2.toText
  let text := "unilap: " ++ r.event ++ " " ++ String.intercalate " " fields
  String.ofList (Text.trimRight text.toList)

/-- The lines that are printed for a record. There are several only if the event or a field
has ends of lines of its own. -/
def lines (r : TraceRecord) : List String := (Text.lines r.text.toList).map String.ofList

def ofDense {f : Format} (e : Dense.Event (Binary f)) : TraceRecord :=
  let solver := ("solver", TraceValue.text "jv")
  match e with
  | .rowReduction phase free =>
    ⟨"row_reduction", [solver, ("loop", .whole phase), ("free", .whole free)]⟩
  | .augment row step free =>
    ⟨"augment", [solver, ("row", .whole row), ("step", .whole step), ("free", .whole free)]⟩
  | .done total => ⟨"done", [solver, ("cost", .real total)]⟩

def ofRectangular {f : Format} (e : Rectangular.Event (Binary f)) : TraceRecord :=
  let solver := ("solver", TraceValue.text "crouse")
  match e with
  | .augment row sink length =>
    ⟨"augment", [solver, ("row", .whole row), ("sink", .whole sink), ("cost", .real length)]⟩
  | .infeasible row => ⟨"infeasible", [solver, ("row", .whole row)]⟩
  | .invalid => ⟨"invalid", [solver]⟩
  | .done matched => ⟨"done", [solver, ("matched", .whole matched)]⟩

end TraceRecord

end LinearAssignment
