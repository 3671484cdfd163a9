import LinearAssignment.Debug
import LinearAssignment.Request
import LinearAssignment.Threshold.Assignment

/-!
Sessions: named matrices, buffers and assigners, and the steps that create, change and use
them. A step that fails changes nothing.
-/
namespace LinearAssignment

structure Session where
  slots : Slots := []
  matrices : List (String × Table) := []
  assigners : List (String × Assigner) := []
  debug : DebugSwitch := {}

structure NamedRequest where
  matrix : String
  maximize : Bool
  /-- Whether the caller observes the events. -/
  observed : Bool
  outputs : Option (List String)

inductive Step where
  | buffer (name : String) (b : Buffer)
  | matrix (name : String) (t : Table)
  | setEntry (name : String) (i j : Int) (value : Scalar)
  | showMatrix (name : String)
  | solveDense (request : NamedRequest)
  | solveRectangular (request : NamedRequest)
  | setEnvironment (setting : Option String)
  | clearCache
  | debugEnabled
  | resolveTracer (own : Bool)
  | print (record : TraceRecord)
  | assigner (name : String) (a : Assigner)
  | setThreshold (name : String) (threshold : Scalar)
  | apply (assigner matrix : String)
  /-- What the step is about cannot be read. -/
  | unreadable (why : Failure)

/-- The result of a step. A response comes with the request that it answers. -/
inductive StepResult where
  | nothing
  | flag (b : Bool)
  | text (s : String)
  | table (t : Table)
  | dense (request : NamedRequest) (response : Response Dense.Answer)
  | rectangular (request : NamedRequest)
      (response : Response fun α => Rectangular.Verdict (Rectangular.Answer α))
  | matching (m : PartialMatching)

structure StepReport where
  result : Except Failure StepResult
  printed : List String := []

namespace Session

/-- Binds a name, which keeps its place if it is known. -/
def bindName {β : Type} (entries : List (String × β)) (name : String) (value : β) :
    List (String × β) :=
  if (entries.lookup name).isSome then
    entries.map fun entry => if entry.1 = name then (name, value) else entry
  else entries ++ [(name, value)]

def printLines (tracer : Tracer) (events : List TraceRecord) : List String :=
  if tracer = .print then events.flatMap TraceRecord.lines else []

def knowsOutputs (s : Session) (request : NamedRequest) : Bool :=
  (request.outputs.getD []).all fun name => (s.slots.lookup name).isSome

/-- Solves a matrix of the session by the given solver. The outputs have to be there for the
step to start; that the matrix is not is an answer of its own. The debug switch is looked at
once the request has been accepted and only if the caller does not observe the events. -/
def solve {Answer : Type → Type} (s : Session) (request : NamedRequest)
    (sizes : Nat → Nat → Nat × Nat) (respond : Request → Slots → Response Answer) :
    Except Failure (Session × Response Answer × List String) :=
  if ¬ s.knowsOutputs request then .error .unknownName
  else
    match s.matrices.lookup request.matrix with
    | none => .ok (s, ⟨[], .error .unknownName, s.slots⟩, [])
    | some t =>
      let full : Request :=
        { cost := .table t, maximize := request.maximize, outputs := request.outputs }
      let response := respond full s.slots
      let accepted := (full.prepare s.slots sizes).toBool
      let (tracer, debug) :=
        if accepted then Tracer.resolve request.observed s.debug else (.none, s.debug)
      .ok ({ s with slots := response.slots, debug }, response,
        printLines tracer response.events)

/-- Applies an assigner to a matrix of the session. The debug switch is looked at when a solver
is called. -/
def apply (s : Session) (assigner matrix : String) : Session × StepReport :=
  match s.assigners.lookup assigner, s.matrices.lookup matrix with
  | some a, some table =>
    match (Tensor.ofTable table).bind a.apply with
    | .error e => (s, ⟨.error e, []⟩)
    | .ok (.immediate m) => (s, ⟨.ok (.matching m), []⟩)
    | .ok (.called run) =>
      let (tracer, debug) := Tracer.resolve false s.debug
      ({ s with debug }, ⟨run.outcome.map .matching, printLines tracer run.events⟩)
  | _, _ => (s, ⟨.error .unknownName, []⟩)

def step (s : Session) : Step → Session × StepReport
  | .buffer name b => ({ s with slots := bindName s.slots name (.buffer b) }, ⟨.ok .nothing, []⟩)
  | .matrix name t => ({ s with matrices := bindName s.matrices name t }, ⟨.ok .nothing, []⟩)
  | .setEntry name i j value =>
    match s.matrices.lookup name with
    | none => (s, ⟨.error .unknownName, []⟩)
    | some t =>
      match t.assign i j value with
      | .ok t => ({ s with matrices := bindName s.matrices name t }, ⟨.ok .nothing, []⟩)
      | .error e => (s, ⟨.error e, []⟩)
  | .showMatrix name =>
    match s.matrices.lookup name with
    | none => (s, ⟨.error .unknownName, []⟩)
    | some t => (s, ⟨.ok (.table t), []⟩)
  | .solveDense request =>
    match s.solve request Dense.outputSizes Dense.respond with
    | .ok (s, response, printed) => (s, ⟨.ok (.dense request response), printed⟩)
    | .error e => (s, ⟨.error e, []⟩)
  | .solveRectangular request =>
    match s.solve request Rectangular.outputSizes Rectangular.respond with
    | .ok (s, response, printed) => (s, ⟨.ok (.rectangular request response), printed⟩)
    | .error e => (s, ⟨.error e, []⟩)
  | .setEnvironment setting =>
    if (setting.getD "").contains '\x00' then (s, ⟨.error .nullCharacter, []⟩)
    else ({ s with debug := { s.debug with setting } }, ⟨.ok .nothing, []⟩)
  | .clearCache => ({ s with debug := s.debug.forget }, ⟨.ok .nothing, []⟩)
  | .debugEnabled =>
    let (on, debug) := s.debug.check
    ({ s with debug }, ⟨.ok (.flag on), []⟩)
  | .resolveTracer own =>
    let (tracer, debug) := Tracer.resolve own s.debug
    ({ s with debug }, ⟨.ok (.text tracer.name), []⟩)
  | .print record => (s, ⟨.ok .nothing, record.lines⟩)
  | .assigner name a =>
    ({ s with assigners := bindName s.assigners name a }, ⟨.ok .nothing, []⟩)
  | .setThreshold name threshold =>
    match s.assigners.lookup name with
    | none => (s, ⟨.error .unknownName, []⟩)
    | some a =>
      ({ s with assigners := bindName s.assigners name { a with threshold } },
        ⟨.ok .nothing, []⟩)
  | .apply assigner matrix => s.apply assigner matrix
  | .unreadable why => (s, ⟨.error why, []⟩)

def run : Session → List Step → List StepReport
  | _, [] => []
  | s, x :: rest =>
    let (s, report) := s.step x
    report :: run s rest

end Session

end LinearAssignment
