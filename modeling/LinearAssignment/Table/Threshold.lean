import LinearAssignment.Problem
import LinearAssignment.Table.Arithmetic
import LinearAssignment.Table.Scalar
import LinearAssignment.Threshold.Gate

/-!
Gating, extension and splitting of tables of any numeric type. A table keeps its type where the
operation allows it.
-/
namespace LinearAssignment.Table

def matrix (t : Table) : Except Failure Problem :=
  match t.shape with
  | [_, _] => t.toProblem none none
  | _ => .error .notAMatrix

def gateIn (t : Table) (f : Format) (kind : ElementKind) (threshold : Binary .double) : Table :=
  { t with
    type := ⟨kind, false⟩,
    elements := t.elements.map fun e =>
      kind.cast (CostMatrix.gateEntry (threshold.convert f) (e.toNumber f)) }

def gateWhole (threshold z : Int) : Element :=
  .real (if z < threshold then .ofInt z else .infinity)

/-- A table with its elements gated at a threshold. Types without infinity become doubles, but
whole numbers are compared as such. -/
def gate (t : Table) (threshold : Scalar) : Except Failure Table := do
  if ¬ t.isNumeric then throw .unsuitableType
  match t.type.kind, threshold with
  | .signed _, .whole y | .unsigned _, .whole y | .boolean, .whole y =>
    return { t with
      type := ⟨.double, false⟩,
      elements := t.elements.map fun e => match e with
        | .whole z => gateWhole y z
        | .flag b => gateWhole y b.toInt
        | e => e }
  | .half, y => return t.gateIn .half .half (← y.checkedDouble)
  | .single, y => return t.gateIn .single .single (← y.checkedDouble)
  | .extended, y => return t.gateIn .double .extended (← y.checkedDouble)
  | _, y => return t.gateIn .double .double (← y.checkedDouble)

def ofExtended {f : Format} {k : Nat} (kind : ElementKind) (cost : CostMatrix (Binary f) k k) :
    Table :=
  ⟨⟨kind, false⟩, [k, k], cost.entries.map kind.cast⟩

def extendIn (t : Table) (f : Format) (kind : ElementKind) (n m : Nat)
    (threshold : Binary .double) : Except Failure Table :=
  let entries := t.elements.map (Element.toNumber f)
  if h : entries.length = n * m then
    let cost : CostMatrix (Binary f) n m := .ofEntries n m ⟨entries.toArray, by simpa using h⟩
    .ok (ofExtended kind (cost.extendAt threshold))
  else .error .notAMatrix

/-- The magnitude of a word. The lowest word with a sign has none but itself. -/
def wordMagnitude (kind : ElementKind) (z : Int) : Int := kind.wrap z.natAbs

/-- The limit of words and truth values of the given kind: the threshold itself if it is finite,
and otherwise one that dominates them. -/
def wordLimit (kind : ElementKind) (n m : Nat) (zs : List Int) (threshold : Scalar) : Scalar :=
  if threshold.isFinite then threshold
  else
    let magnitude := match zs.map (wordMagnitude kind) with
      | [] => 0
      | z :: rest => rest.foldl max z
    .real (Binary.dominating (min n m) (.ofInt magnitude))

/-- A word, or the limit if it is not below. A whole limit has to be a word of the kind. -/
def clipWord (kind : ElementKind) (limit : Scalar) : Except Failure (Int → Element) :=
  match limit with
  | .whole y => do
    let e ← Scalar.wholeElement (if kind = .boolean then .signed 64 else kind) y
    return fun z =>
      if z < y then kind.ofWhole z
      else match e with
        | .whole y => kind.ofWhole y
        | e => e
  | .real y =>
    .ok fun z => kind.cast (if (.ofInt z : Binary .double) < y then .ofInt z else y)

/-- The extension of a table of words or truth values. The dummies are truncated. -/
def extendWords (kind : ElementKind) (n m : Nat) (zs : List Int) (threshold : Scalar) :
    Except Failure Table := do
  let limit := wordLimit kind n m zs threshold
  let half := kind.cast ((← limit.checkedDouble).halve)
  let clip ← clipWord kind limit
  let zero := kind.ofWhole 0
  let rows := (List.range n).map fun i =>
    ((zs.drop (i * m)).take m).map clip ++ List.replicate n half
  let dummies := List.replicate m (List.replicate m half ++ List.replicate n zero)
  return ⟨⟨kind, false⟩, [n + m, n + m], (rows ++ dummies).flatten⟩

def extendAt (t : Table) (threshold : Scalar) : Except Failure Table := do
  match t.shape with
  | [n, m] =>
    if ¬ t.isNumeric then throw .unsuitableType
    let zs := t.elements.map fun e => match e with
      | .whole z => z
      | .flag b => b.toInt
      | _ => 0
    match t.type.kind with
    | .signed _ | .unsigned _ | .boolean => extendWords t.type.kind n m zs threshold
    | .half => t.extendIn .half .half n m (← threshold.checkedDouble)
    | .single => t.extendIn .single .single n m (← threshold.checkedDouble)
    | kind => t.extendIn .double kind n m (← threshold.checkedDouble)
  | _ => throw .notAMatrix

/-- The matches that lists of rows and columns stand for. Lists of different lengths have no
common mask, even if one of them stretches to the other. -/
def split (t : Table) (rows columns : List Int) : Except Failure PartialMatching := do
  match t.shape with
  | [n, m] =>
    if rows.length ≠ columns.length then
      let isSingle := rows.length = 1 ∨ columns.length = 1
      throw (if isSingle then .indexOutOfRange else .incompatibleShapes)
    if ¬ t.isNumeric ∧ ¬ t.isComplex then throw .unsuitableType
    let marks : List (Binary .double) := t.elements.map fun e => if e.isFinite then 0 else .nan
    if h : marks.length = n * m then
      let cost := CostMatrix.ofEntries n m ⟨marks.toArray, by simpa using h⟩
      return cost.split (rows.zip columns)
    else throw .notAMatrix
  | _ => throw .notAMatrix

end LinearAssignment.Table
