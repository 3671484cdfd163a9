import LinearAssignment.Cost
import LinearAssignment.Table.ElementType

/-!
Why a request is refused or a solve fails, and the texts of the failures that have one.
-/
namespace LinearAssignment

/-- The shape of a table as it is written: dimensions in parentheses, a single one with a comma
after it. -/
def shapeText (dimensions : List String) : String :=
  match dimensions with
  | [d] => "(" ++ d ++ ",)"
  | ds => "(" ++ String.intercalate ", " ds ++ ")"

inductive OutputRole where
  | first
  | second
  deriving DecidableEq

def OutputRole.name : OutputRole → String
  | first => "rowsol"
  | second => "colsol"

/-- How a caller breaks the contract of a solver. -/
inductive Violation where
  | unsupportedElements (type : ElementType)
  | notACostType (type : ElementType)
  /-- A dimension is negative; the shape is kept as it was written. -/
  | invalidShape (written : String)
  | sizeMismatch (entries rows columns : Nat)
  | notTwoDimensional (dimensions : Nat)
  | outputCount (count : Nat)
  | outputNotATable (output : OutputRole)
  | outputShape (output : OutputRole) (size : Nat) (shape : List Nat)
  | outputType (output : OutputRole) (type : ElementType)
  | outputReadOnly (output : OutputRole)
  deriving DecidableEq

def Violation.message : Violation → String
  | unsupportedElements t => "Unsupported cost matrix dtype: " ++ t.name
  | notACostType t => "Cost dtype must be float32 or float64, got " ++ t.name
  | invalidShape written => "Invalid shape " ++ written
  | sizeMismatch k n m =>
    "Buffer of " ++ toString k ++ " entries does not match shape " ++
      shapeText [toString n, toString m]
  | notTwoDimensional d => "Cost matrix must have 2 dimensions, got " ++ toString d
  | outputCount k => "Expected two output buffers, got " ++ toString k
  | outputNotATable o => "Output " ++ o.name ++ " must be a numpy array"
  | outputShape o size shape =>
    "Output " ++ o.name ++ " must have shape " ++ shapeText [toString size] ++ ", got " ++
      shapeText (shape.map toString)
  | outputType o t => "Output " ++ o.name ++ " must have a signed integer dtype, got " ++ t.name
  | outputReadOnly o => "Output " ++ o.name ++ " is read-only"

inductive Failure where
  | violation (v : Violation)
  | infeasible
  | invalid
  | search (e : SearchError)
  /-- A shape is not given by two dimensions. -/
  | shapeNotAPair
  /-- A table that has to be a matrix is none. -/
  | notAMatrix
  /-- A nested list is no table. -/
  | ragged
  /-- A table does not have as many elements as its dimensions ask for. -/
  | wrongElementCount
  | negativeDimension
  /-- A value that has to be a number is none. -/
  | notANumber
  /-- A number is too large for what it has to become. -/
  | outOfRange
  /-- The operation is not defined on elements of the type. -/
  | unsuitableType
  /-- The bytes of the elements are stored in the reverse of the usual order. -/
  | reversedByteOrder
  /-- A text that ends at its first null character has one inside. -/
  | nullCharacter
  /-- The minimum of no dimensions was asked for. -/
  | noDimensions
  | incompatibleShapes
  | unknownElementType
  | unknownStatus
  | indexOutOfRange
  | unknownName
  | moreRowsThanColumns
  /-- The assigner does not say how it assigns. -/
  | notImplemented
  deriving DecidableEq

def Failure.message? : Failure → Option String
  | violation v => some v.message
  | infeasible => some "Cost matrix has no complete assignment"
  | invalid => some "Cost matrix contains NaN or -inf entries"
  | _ => none

end LinearAssignment
