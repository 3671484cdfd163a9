import LinearAssignment.Proofs.Delivery
import LinearAssignment.Proofs.Symmetry

/-! When the outputs of a request are written. Neither is touched before there is an assignment, and
then two outputs of their own hold it in the low bits of their words; of two outputs in one slot the
second half is left. What is reported, the assignment apart, does not depend on the outputs. -/
namespace LinearAssignment

/-- An output has received integers: it is a buffer of so many signed words, each of which now holds
what its bits hold of an integer, and is otherwise as before. -/
def Output.Took (o after : Output) (values : List ℤ) : Prop :=
  ∃ b bits, o = .buffer b ∧ b.shape = [values.length] ∧ b.type.kind = .signed bits ∧
    after = .buffer { b with elements := values.map fun z => .whole (z.bmod (2 ^ bits)) }

theorem Output.write_write (o : Output) (before values : List ℤ) :
    (o.write before).write values = o.write values := by
  cases o <;> rfl

namespace Slots

variable {slots : Slots} {first second : String} {size bits bits' : ℕ} {halves : List ℤ × List ℤ}

theorem Receives.took {values : List ℤ} (h : slots.Receives first values.length bits) :
    (slots.output first).Took ((slots.output first).write values) values := by
  obtain ⟨b, hb, hshape, hkind, -⟩ := h
  refine ⟨b, bits, hb, hshape, hkind, ?_⟩
  simp only [hb, Output.write, Buffer.write, hkind, ElementKind.wrap]
  rfl

/-- Both outputs have received their halves of an assignment, and no other has changed. Two outputs
in one slot have received the second half. -/
structure Overwritten (slots after : Slots) (first second : String)
    (halves : List ℤ × List ℤ) : Prop where
  holds_first : first ≠ second → (slots.output first).Took (after.output first) halves.1
  holds_second : (slots.output second).Took (after.output second) halves.2
  others : ∀ name, name ≠ first → name ≠ second → after.output name = slots.output name

theorem overwritten_deliver (hfirst : slots.Receives first halves.1.length bits)
    (hsecond : slots.Receives second halves.2.length bits') :
    slots.Overwritten (slots.deliver (some (first, second)) halves).1 first second halves := by
  refine ⟨fun hne => ?_, ?_, fun name hne hne' => ?_⟩
  · simp only [deliver, output_write, if_neg hne, if_true]
    exact hfirst.took
  · simp only [deliver, output_write, if_true]
    split
    -- In one slot the second half goes over the first.
    next => exact (Output.write_write _ _ _).symm ▸ hsecond.took
    next => exact hsecond.took
  · simp only [deliver, output_write, if_neg hne, if_neg hne']

def Written (slots after : Slots) (outputs : Option (List String)) (halves : List ℤ × List ℤ) :
    Prop :=
  outputs = none ∧ after = slots ∨
    ∃ first second, outputs = some [first, second] ∧ slots.Overwritten after first second halves

theorem written_deliver {outputs : Option (List String)} {names : Option (String × String)}
    (h : slots.accept outputs (halves.1.length, halves.2.length) = .ok names) :
    slots.Written (slots.deliver names halves).1 outputs halves := by
  cases outputs with
  | none =>
    cases h
    exact .inl ⟨rfl, rfl⟩
  | some outputs =>
    obtain ⟨first, second, bits, bits', rfl, rfl, hfirst, hsecond⟩ := exists_of_accept h
    exact .inr ⟨first, second, rfl, overwritten_deliver hfirst hsecond⟩

end Slots

structure AnswerView (Answer : Type → Type) where
  assignment? : {α : Type} → Answer α → Option (List ℤ × List ℤ)
  rest : {α : Type} → Answer α → Answer α

def AnswerView.restOf {Answer : Type → Type} (view : AnswerView Answer) (r : Response Answer) :
    Except Failure ((p : Precision) × Answer p.Number) :=
  r.outcome.map fun a => ⟨a.1, view.rest a.2⟩

namespace Dense

def answerView : AnswerView Answer where
  assignment? a := some (a.columnOfRow, a.rowOfColumn)
  rest a := { a with columnOfRow := [], rowOfColumn := [] }

end Dense

namespace Rectangular

def answerView : AnswerView fun α => Verdict (Answer α) where
  assignment?
    | .solved a => some (a.rows, a.columns)
    | _ => none
  rest v := v.map fun a => { a with rows := [], columns := [] }

end Rectangular

section respond

variable {Answer : Type → Type} {request : Request} {slots : Slots} {sizes : ℕ → ℕ → ℕ × ℕ}
  {problem : Problem} {names : Option (String × String)}

def Request.plain (request : Request) : Request := { request with outputs := none }

/-- All or nothing: without an assignment the slots are as before, whatever the reason, and with one
the outputs have been overwritten in full. The assignment is that of the request without outputs.
Outputs that are accepted change nothing in the events, in a failure or status or in what else the
answer has. -/
structure Request.IsAllOrNothing (request : Request) (slots : Slots) (view : AnswerView Answer)
    (sizes : ℕ → ℕ → ℕ × ℕ) (respond : Request → Slots → Response Answer) : Prop where
  kept : (∀ r, (respond request slots).outcome = .ok r → view.assignment? r.2 = none) →
    (respond request slots).slots = slots
  written : ∀ r read, (respond request slots).outcome = .ok r → view.assignment? r.2 = some read →
    ∃ r' halves, (respond request.plain slots).outcome = .ok r' ∧
      view.assignment? r'.2 = some halves ∧
      slots.Written (respond request slots).slots request.outputs halves
  unaffected : ∀ problem names,
    request.cost.toProblem request.shape request.precision = .ok problem →
    slots.accept request.outputs (sizes problem.rows problem.columns) = .ok names →
    (respond request slots).events = (respond request.plain slots).events ∧
      view.restOf (respond request slots) = view.restOf (respond request.plain slots)

theorem Request.prepare_eq
    (hproblem : request.cost.toProblem request.shape request.precision = .ok problem)
    (hnames : slots.accept request.outputs (sizes problem.rows problem.columns) = .ok names) :
    request.prepare slots sizes = .ok (problem, names) := by
  simp only [prepare, hproblem, bind, Except.bind, hnames]
  rfl

end respond

namespace Dense

variable {request : Request} {slots : Slots} {problem : Problem}
  {names : Option (String × String)}

theorem respond_of_failed {e : SearchError}
    (hprepare : request.prepare slots outputSizes = .ok (problem, names))
    (he : (solve problem.cost request.maximize).outcome = .error e) :
    respond request slots = ⟨(solve problem.cost request.maximize).events.map .ofDense,
      .error (.search e), slots⟩ := by
  simp only [respond, hprepare, he]

theorem slots_of_error {e : Failure} (h : (respond request slots).outcome = .error e) :
    (respond request slots).slots = slots := by
  cases hprepare : request.prepare slots outputSizes with
  | error e' => simp only [respond, hprepare]
  | ok accepted =>
    obtain ⟨problem, names⟩ := accepted
    cases hs : (solve problem.cost request.maximize).outcome with
    | error e' => rw [respond_of_failed hprepare hs]
    | ok s =>
      rw [respond_eq hprepare hs] at h
      cases h

theorem isAllOrNothing (request : Request) (slots : Slots) :
    request.IsAllOrNothing slots answerView outputSizes respond where
  kept h := by
    cases hr : (respond request slots).outcome with
    | error e => exact slots_of_error hr
    | ok r => exact nomatch h r hr
  written r read hr hread := by
    obtain ⟨problem, names, s, hprepare, hs⟩ := exists_of_respond hr
    obtain ⟨hproblem, hnames⟩ := Request.exists_of_prepare hprepare
    have hplain : request.plain.prepare slots outputSizes = .ok (problem, none) :=
      Request.prepare_without_outputs slots hproblem
    rw [respond_eq hplain hs, respond_eq hprepare hs]
    refine ⟨_, _, rfl, rfl, Slots.written_deliver ?_⟩
    simpa [outputSizes] using hnames
  unaffected problem names hproblem hnames := by
    have hprepare := Request.prepare_eq hproblem hnames
    have hplain : request.plain.prepare slots outputSizes = .ok (problem, none) :=
      Request.prepare_without_outputs slots hproblem
    cases hs : (solve problem.cost request.maximize).outcome with
    | error e =>
      rw [respond_of_failed hprepare hs, respond_of_failed hplain hs]
      exact ⟨rfl, rfl⟩
    | ok s =>
      rw [respond_eq hprepare hs, respond_eq hplain hs]
      exact ⟨rfl, rfl⟩

end Dense

namespace Rectangular

section length

variable {f : Format} {n m : ℕ}

theorem length_columns {s : DualMatching (Binary f) n m} (h : s.IsComplete) :
    s.columns.length = n := by
  obtain ⟨g, -, hg⟩ := h.exists_columns
  rw [columns_eq_ofFn hg, List.length_ofFn]

theorem length_restorePairs (transposed : Bool) (columns : List ℕ) :
    (NormalForm.restorePairs transposed columns).length = columns.length := by
  cases transposed <;> simp [NormalForm.restorePairs]

/-- A solution has a pair for each line of the smaller side. -/
theorem length_pairs {cost : CostMatrix (Binary f) n m} {maximize : Bool}
    {s : Solution (Binary f) n m} (h : (solve cost maximize).outcome = .ok (.solved s)) :
    s.pairs.length = min n m := by
  by_cases hmin : min n m = 0
  · rw [solve, if_pos hmin] at h
    cases h
    exact hmin.symm
  · rw [solve_outcome_eq _ _ hmin] at h
    rcases Nat.lt_or_ge m n with hlt | hle
    · rw [CostMatrix.normalize_of_lt _ _ hlt] at h
      obtain ⟨verdict, hverdict, h⟩ := Run.exists_of_outcome_bind h
      cases verdict with
      | solved t =>
        cases h
        have hcomplete := isComplete_of_solveChecked hlt.le hverdict rfl
        rw [Solution.ofTransposed, length_restorePairs, length_columns hcomplete,
          min_eq_right hlt.le]
      | infeasible => cases h
      | invalid => cases h
    · rw [CostMatrix.normalize_of_le _ _ hle] at h
      obtain ⟨verdict, hverdict, h⟩ := Run.exists_of_outcome_bind h
      cases verdict with
      | solved t =>
        cases h
        have hcomplete := isComplete_of_solveChecked hle hverdict rfl
        rw [Solution.ofUpright, length_restorePairs, length_columns hcomplete, min_eq_left hle]
      | infeasible => cases h
      | invalid => cases h

end length

variable {request : Request} {slots : Slots} {problem : Problem}
  {names : Option (String × String)}

theorem respond_of_failed {e : SearchError}
    (hprepare : request.prepare slots outputSizes = .ok (problem, names))
    (he : (solve problem.cost request.maximize).outcome = .error e) :
    respond request slots = ⟨(solve problem.cost request.maximize).events.map .ofRectangular,
      .error (.search e), slots⟩ := by
  simp only [respond, hprepare, he]

theorem respond_of_verdict {v : Verdict (Solution problem.precision.Number _ _)}
    (hprepare : request.prepare slots outputSizes = .ok (problem, names))
    (hv : (solve problem.cost request.maximize).outcome = .ok v) :
    respond request slots = ⟨(solve problem.cost request.maximize).events.map .ofRectangular,
      .ok ⟨problem.precision, v.map fun s => (s.deliver slots names).2⟩,
      match v with
      | .solved s => (s.deliver slots names).1
      | _ => slots⟩ := by
  simp only [respond, hprepare, hv]
  cases v <;> rfl

theorem slots_of_unsolved
    (h : ∀ r, (respond request slots).outcome = .ok r → answerView.assignment? r.2 = none) :
    (respond request slots).slots = slots := by
  cases hprepare : request.prepare slots outputSizes with
  | error e => simp only [respond, hprepare]
  | ok accepted =>
    obtain ⟨problem, names⟩ := accepted
    cases hv : (solve problem.cost request.maximize).outcome with
    | error e => rw [respond_of_failed hprepare hv]
    | ok v =>
      rw [respond_of_verdict hprepare hv] at h ⊢
      cases v with
      | solved s => exact absurd (h _ rfl) (Option.some_ne_none _)
      | infeasible => rfl
      | invalid => rfl

theorem isAllOrNothing (request : Request) (slots : Slots) :
    request.IsAllOrNothing slots answerView outputSizes respond where
  kept := slots_of_unsolved
  written r read hr hread := by
    obtain ⟨p, answer | _ | _⟩ := r
    · obtain ⟨problem, names, s, hprepare, hs⟩ := exists_of_respond hr
      obtain ⟨hproblem, hnames⟩ := Request.exists_of_prepare hprepare
      have hplain : request.plain.prepare slots outputSizes = .ok (problem, none) :=
        Request.prepare_without_outputs slots hproblem
      rw [respond_eq hplain hs, respond_eq hprepare hs]
      refine ⟨_, _, rfl, rfl, Slots.written_deliver ?_⟩
      simpa [outputSizes, length_pairs hs] using hnames
    · exact nomatch hread
    · exact nomatch hread
  unaffected problem names hproblem hnames := by
    have hprepare := Request.prepare_eq hproblem hnames
    have hplain : request.plain.prepare slots outputSizes = .ok (problem, none) :=
      Request.prepare_without_outputs slots hproblem
    cases hv : (solve problem.cost request.maximize).outcome with
    | error e =>
      rw [respond_of_failed hprepare hv, respond_of_failed hplain hv]
      exact ⟨rfl, rfl⟩
    | ok v =>
      rw [respond_of_verdict hprepare hv, respond_of_verdict hplain hv]
      cases v <;> exact ⟨rfl, rfl⟩

end Rectangular

/-- Both solvers write to both outputs of a request or to neither, and what they report, the
assignment apart, is the same as without outputs. -/
theorem respond_all_or_nothing (request : Request) (slots : Slots) :
    request.IsAllOrNothing slots Dense.answerView Dense.outputSizes Dense.respond ∧
      request.IsAllOrNothing slots Rectangular.answerView Rectangular.outputSizes
        Rectangular.respond :=
  ⟨Dense.isAllOrNothing request slots, Rectangular.isAllOrNothing request slots⟩

/-- Two outputs that are accepted are written, and a first one that is accepted is not written if
the second has the wrong length. -/
theorem respond_lastColumn_all_or_nothing :
    (Dense.respond (lastColumn 2) (lastColumnSlots 2)).slots.output "column" =
        .buffer ⟨⟨⟨.signed 8, false⟩, [1], [.whole 2]⟩, true⟩ ∧
      (Dense.respond (lastColumn 2) (lastColumnSlots 2)).slots.output "rows" =
        .buffer ⟨⟨⟨.signed 64, false⟩, [3], [.whole (-1), .whole (-1), .whole 0]⟩, true⟩ ∧
      (Dense.respond { lastColumn 2 with outputs := some ["column", "column"] }
        (lastColumnSlots 2)).slots = lastColumnSlots 2 := by
  rw [← and_assoc]
  constructor
  · obtain ⟨p, answer, hanswer, -⟩ :=
      exists_of_columns (lastColumn 2) (lastColumnSlots 2) [2] (by decide +kernel)
    obtain ⟨r, halves, hr, hhalves, ⟨hnone, -⟩ | ⟨first, second, houtputs, hwritten⟩⟩ :=
      (respond_all_or_nothing (lastColumn 2) (lastColumnSlots 2)).1.written _ _ hanswer rfl
    · exact nomatch hnone
    · cases houtputs
      have hplain : ((Dense.respond (lastColumn 2).plain (lastColumnSlots 2)).outcome.toOption.bind
          fun r => Dense.answerView.assignment? r.2) = some ([2], [-1, -1, 0]) := by
        decide +kernel
      rw [hr] at hplain
      obtain rfl := Option.some.inj (hhalves.symm.trans hplain)
      obtain ⟨b, bits, hb, -, hkind, hafter⟩ := hwritten.holds_first (by decide)
      obtain ⟨b', bits', hb', -, hkind', hafter'⟩ := hwritten.holds_second
      cases hb
      cases hb'
      cases hkind
      cases hkind'
      exact ⟨hafter, hafter'⟩
  · refine (respond_all_or_nothing _ _).1.kept fun r hr => ?_
    have hrefused : (Dense.respond { lastColumn 2 with outputs := some ["column", "column"] }
        (lastColumnSlots 2)).outcome.toBool = false := by decide +kernel
    rw [hr] at hrefused
    exact nomatch hrefused

section shared

/-- Two rows and two columns to be matched crosswise, with one slot for both outputs. -/
def shared : Request where
  cost := .table ⟨⟨.signed 64, false⟩, [2, 2], [.whole 1, .whole 0, .whole 0, .whole 1]⟩
  outputs := some ["both", "both"]

def sharedSlots : Slots :=
  [("both", .buffer ⟨⟨⟨.signed 64, false⟩, [2], [.whole 7, .whole 7]⟩, true⟩)]

/-- The slot that both outputs name is left with the columns, so the rows are lost. -/
theorem shared_loses_rows :
    ((Rectangular.respond shared.plain sharedSlots).outcome.toOption.bind
        fun r => Rectangular.answerView.assignment? r.2) = some ([0, 1], [1, 0]) ∧
      ((Rectangular.respond shared sharedSlots).outcome.toOption.bind
        fun r => Rectangular.answerView.assignment? r.2) = some ([1, 0], [1, 0]) ∧
      ¬ (sharedSlots.output "both").Took
        ((Rectangular.respond shared sharedSlots).slots.output "both") [0, 1] := by
  have hcontents : (Rectangular.respond shared sharedSlots).slots.contents "both" = [1, 0] := by
    decide +kernel
  refine ⟨by decide +kernel, by decide +kernel, ?_⟩
  rintro ⟨b, bits, hb, -, hkind, hafter⟩
  cases hb
  cases hkind
  rw [Slots.contents, hafter] at hcontents
  exact absurd hcontents (by decide)

end shared

end LinearAssignment
