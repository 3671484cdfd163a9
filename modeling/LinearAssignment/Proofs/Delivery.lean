import LinearAssignment.Proofs.Rectangular.Verdict
import LinearAssignment.Request

/-! What a caller reads back from the outputs. An output is accepted for its length and for holding
signed words, whatever their width, and a word keeps no more than the low bits of an index. Outputs
of their own hold the assignment exactly if every index fits in the words; of two outputs in one
slot only the second half is left. -/
namespace LinearAssignment

namespace ElementKind

def Fits (bits : ℕ) (z : ℤ) : Prop := -2 ^ bits ≤ 2 * z ∧ 2 * z < 2 ^ bits

variable {bits : ℕ} {z : ℤ}

theorem wrap_signed_eq_self_iff : (signed bits).wrap z = z ↔ Fits bits z := by
  have hpos : 0 < Nat.pow 2 bits := Nat.two_pow_pos bits
  have hcast : ((Nat.pow 2 bits : ℕ) : ℤ) = 2 ^ bits := Nat.cast_pow 2 bits
  simp only [wrap, Int.bmod_eq_iff hpos, hcast, Fits, sub_self, dvd_zero, and_true]
  omega

/-- An index below a bound, or -1 for none, is a word of so many bits that half of their numbers
reach the bound. -/
theorem fits_of_lt {bound : ℕ} (hlow : -1 ≤ z) (hhigh : z < bound)
    (h : 2 * max 1 bound ≤ 2 ^ bits) : Fits bits z := by
  have hcast : (2 * max 1 bound : ℤ) ≤ 2 ^ bits := by exact_mod_cast h
  constructor <;> omega

theorem map_wrap_eq_self_iff {values : List ℤ} :
    values.map (signed bits).wrap = values ↔ ∀ z ∈ values, Fits bits z := by
  have h := List.map_inj_left (l := values) (f := (signed bits).wrap) (g := id)
  simpa only [List.map_id, id_eq, wrap_signed_eq_self_iff] using h

end ElementKind

/-- The outputs that are accepted are writable buffers of one dimension, the given size and signed
words. -/
theorem Output.exists_of_check {role : OutputRole} {size : ℕ} {o : Output} {b : Buffer}
    (h : o.check role size = .ok b) : o = .buffer b ∧ b.shape = [size] ∧
      (∃ bits, b.type.kind = .signed bits) ∧ b.writable = true := by
  unfold check at h
  split at h
  next => exact nomatch h
  next b' =>
    split at h
    next => exact nomatch h
    next hshape =>
      split at h
      next bits hkind =>
        split at h
        next hwritable =>
          cases h
          exact ⟨rfl, not_not.mp hshape, ⟨bits, hkind⟩, hwritable⟩
        next => exact nomatch h
      next => exact nomatch h

namespace Slots

variable {slots : Slots} {first second : String} {size bits bits' : ℕ} {sizes limits : ℕ × ℕ}
  {halves : List ℤ × List ℤ}

def Receives (slots : Slots) (name : String) (size bits : ℕ) : Prop :=
  ∃ b, slots.output name = .buffer b ∧ b.shape = [size] ∧ b.type.kind = .signed bits ∧
    b.writable = true

theorem receives_of_check {role : OutputRole} {b : Buffer}
    (h : (slots.output first).check role size = .ok b) :
    ∃ bits, slots.Receives first size bits := by
  obtain ⟨hbuffer, hshape, ⟨bits, hkind⟩, hwritable⟩ := Output.exists_of_check h
  exact ⟨bits, b, hbuffer, hshape, hkind, hwritable⟩

/-- Two outputs are accepted for what they are and not for what they will receive. -/
theorem exists_of_accept {names : List String} {accepted : Option (String × String)}
    (h : slots.accept (some names) sizes = .ok accepted) :
    ∃ first second bits bits', names = [first, second] ∧ accepted = some (first, second) ∧
      slots.Receives first sizes.1 bits ∧ slots.Receives second sizes.2 bits' := by
  unfold accept at h
  split at h
  next => contradiction
  next names' hnames =>
    cases hnames
    split at h
    next buffers first second hpair =>
      cases h
      obtain ⟨a, ha, h⟩ := exists_of_bind_eq_ok hpair
      obtain ⟨b, hb, -⟩ := exists_of_bind_eq_ok h
      obtain ⟨bits, hfirst⟩ := receives_of_check ha
      obtain ⟨bits', hsecond⟩ := receives_of_check hb
      exact ⟨first, second, bits, bits', rfl, rfl, hfirst, hsecond⟩
    next => exact nomatch h
    next => exact nomatch h

theorem output_cons (name key : String) (o : Output) (rest : Slots) :
    output ((key, o) :: rest) name = if name = key then o else rest.output name := by
  by_cases h : name = key
  · simp [output, h]
  · have hbeq : (name == key) = false := beq_false_of_ne h
    simp [output, List.lookup_cons, hbeq, h]

theorem output_write (slots : Slots) (name other : String) (values : List ℤ) :
    (slots.write name values).output other =
      if other = name then (slots.output other).write values else slots.output other := by
  induction slots with
  | nil => simp [write, output, Output.write]
  | cons slot rest ih =>
    obtain ⟨key, o⟩ := slot
    have hwrite : write ((key, o) :: rest) name values =
        (key, if key = name then o.write values else o) :: write rest name values := by
      by_cases h : key = name <;> simp [write, h]
    rw [hwrite, output_cons, output_cons, ih]
    by_cases hkey : other = key
    · simp [hkey]
    · simp [hkey]

theorem contents_write_of_ne (h : second ≠ first) (values : List ℤ) :
    (slots.write first values).contents second = slots.contents second := by
  simp only [contents, output_write, if_neg h]

namespace Receives

/-- An accepted output can be written to any number of times. -/
theorem write (h : slots.Receives first size bits) (name : String) (values : List ℤ) :
    (slots.write name values).Receives first size bits := by
  obtain ⟨b, hb, hb'⟩ := h
  rcases eq_or_ne first name with rfl | hne
  · exact ⟨b.write values, by simp only [output_write, if_true, hb, Output.write], hb'⟩
  · exact ⟨b, by simp only [output_write, if_neg hne, hb], hb'⟩

theorem contents_write (h : slots.Receives first size bits) (values : List ℤ) :
    (slots.write first values).contents first = values.map (ElementKind.signed bits).wrap := by
  obtain ⟨b, hb, -, hkind, -⟩ := h
  simp only [contents, output_write, if_pos, hb, Output.write, Buffer.contents_write, hkind]

theorem width_eq {size' : ℕ} (h : slots.Receives first size bits)
    (h' : slots.Receives first size' bits') : bits = bits' := by
  obtain ⟨b, hb, -, hkind, -⟩ := h
  obtain ⟨b', hb', -, hkind', -⟩ := h'
  cases hb.symm.trans hb'
  exact ElementKind.signed.inj (hkind.symm.trans hkind')

end Receives

/-- What two accepted outputs hold after the halves of an assignment have been delivered. -/
theorem deliver_eq {size' : ℕ} (hfirst : slots.Receives first size bits)
    (hsecond : slots.Receives second size' bits') (halves : List ℤ × List ℤ) :
    (slots.deliver (some (first, second)) halves).2 =
      ((if first = second then halves.2 else halves.1).map (ElementKind.signed bits).wrap,
        halves.2.map (ElementKind.signed bits').wrap) := by
  have hread := (hsecond.write first halves.1).contents_write halves.2
  rcases eq_or_ne first second with rfl | hne
  · simp only [deliver, hread, hfirst.width_eq hsecond, if_true]
  · simp only [deliver, hread, contents_write_of_ne hne, hfirst.contents_write, if_neg hne]

/-- What becomes of the halves of an assignment, whose indices lie below the limits: `read` is what
the outputs hold afterwards, which is what is returned. It is the assignment if and only if every
index fits in the words of its output, so always if half of the words reach the limit. -/
structure Delivers (after : Slots) (names : String × String) (bits limits : ℕ × ℕ)
    (halves read : List ℤ × List ℤ) : Prop where
  first_bounds : ∀ z ∈ halves.1, -1 ≤ z ∧ z < limits.1
  second_bounds : ∀ z ∈ halves.2, -1 ≤ z ∧ z < limits.2
  contents : read = (after.contents names.1, after.contents names.2)
  stored : read =
    ((if names.1 = names.2 then halves.2 else halves.1).map (ElementKind.signed bits.1).wrap,
      halves.2.map (ElementKind.signed bits.2).wrap)
  faithful_iff : names.1 ≠ names.2 → (read = halves ↔
    (∀ z ∈ halves.1, ElementKind.Fits bits.1 z) ∧ ∀ z ∈ halves.2, ElementKind.Fits bits.2 z)
  faithful : names.1 ≠ names.2 → 2 * max 1 limits.1 ≤ 2 ^ bits.1 →
    2 * max 1 limits.2 ≤ 2 ^ bits.2 → read = halves

theorem delivers_deliver {size' : ℕ} (hfirst : slots.Receives first size bits)
    (hsecond : slots.Receives second size' bits')
    (hbelow : ∀ z ∈ halves.1, -1 ≤ z ∧ z < limits.1)
    (hbelow' : ∀ z ∈ halves.2, -1 ≤ z ∧ z < limits.2) :
    Delivers (slots.deliver (some (first, second)) halves).1 (first, second) (bits, bits') limits
      halves (slots.deliver (some (first, second)) halves).2 := by
  have hstored := deliver_eq hfirst hsecond halves
  have hiff : first ≠ second → ((slots.deliver (some (first, second)) halves).2 = halves ↔
      (∀ z ∈ halves.1, ElementKind.Fits bits z) ∧ ∀ z ∈ halves.2, ElementKind.Fits bits' z) := by
    intro hne
    rw [hstored, if_neg hne, Prod.ext_iff, ElementKind.map_wrap_eq_self_iff,
      ElementKind.map_wrap_eq_self_iff]
  refine ⟨hbelow, hbelow', rfl, hstored, hiff,
    fun hne h h' => (hiff hne).mpr ⟨fun z hz => ?_, fun z hz => ?_⟩⟩
  · exact ElementKind.fits_of_lt (hbelow z hz).1 (hbelow z hz).2 h
  · exact ElementKind.fits_of_lt (hbelow' z hz).1 (hbelow' z hz).2 h'

end Slots

theorem indexOrMinusOne_bounds {k : ℕ} (o : Option (Fin k)) :
    -1 ≤ indexOrMinusOne o ∧ indexOrMinusOne o < k := by
  cases o <;> simp only [indexOrMinusOne] <;> omega

theorem forall_map_natCast_bounds {κ : Type} {l : List κ} {f : κ → ℕ} {k : ℕ}
    (h : ∀ q ∈ l, f q < k) : ∀ z ∈ l.map fun q => (f q : ℤ), -1 ≤ z ∧ z < k := by
  intro z hz
  obtain ⟨q, hq, rfl⟩ := List.mem_map.mp hz
  have hlt := h q hq
  constructor <;> omega

section respond

variable {request : Request} {slots : Slots} {sizes : ℕ → ℕ → ℕ × ℕ} {problem : Problem}
  {names : Option (String × String)}

theorem Request.exists_of_prepare (h : request.prepare slots sizes = .ok (problem, names)) :
    request.cost.toProblem request.shape request.precision = .ok problem ∧
      slots.accept request.outputs (sizes problem.rows problem.columns) = .ok names := by
  obtain ⟨problem', hproblem, h⟩ := exists_of_bind_eq_ok h
  obtain ⟨names', hnames, h⟩ := exists_of_bind_eq_ok h
  cases h
  exact ⟨hproblem, hnames⟩

theorem Request.prepare_without_outputs (slots : Slots)
    (h : request.cost.toProblem request.shape request.precision = .ok problem) :
    Request.prepare { request with outputs := none } slots sizes = .ok (problem, none) := by
  simp only [prepare, h, Slots.accept]
  rfl

theorem Dense.exists_of_respond {r} (h : (Dense.respond request slots).outcome = .ok r) :
    ∃ problem names s, request.prepare slots Dense.outputSizes = .ok (problem, names) ∧
      (Dense.solve problem.cost request.maximize).outcome = .ok s := by
  unfold Dense.respond at h
  split at h
  next => exact nomatch h
  next problem names hprepare =>
    dsimp only at h
    split at h
    next => exact nomatch h
    next s hs => exact ⟨problem, names, s, hprepare, hs⟩

theorem Dense.respond_eq {s}
    (hprepare : request.prepare slots Dense.outputSizes = .ok (problem, names))
    (hs : (Dense.solve problem.cost request.maximize).outcome = .ok s) :
    Dense.respond request slots = ⟨(Dense.solve problem.cost request.maximize).events.map .ofDense,
      .ok ⟨problem.precision, (s.deliver slots names).2⟩, (s.deliver slots names).1⟩ := by
  simp only [Dense.respond, hprepare, hs]

theorem Rectangular.exists_of_respond {p answer}
    (h : (Rectangular.respond request slots).outcome = .ok ⟨p, .solved answer⟩) :
    ∃ problem names s, request.prepare slots Rectangular.outputSizes = .ok (problem, names) ∧
      (Rectangular.solve problem.cost request.maximize).outcome = .ok (.solved s) := by
  unfold Rectangular.respond at h
  split at h
  next => exact nomatch h
  next problem names hprepare =>
    dsimp only at h
    split at h
    next => exact nomatch h
    next s hs => exact ⟨problem, names, s, hprepare, hs⟩
    next => cases h
    next => cases h

theorem Rectangular.respond_eq {s}
    (hprepare : request.prepare slots Rectangular.outputSizes = .ok (problem, names))
    (hs : (Rectangular.solve problem.cost request.maximize).outcome = .ok (.solved s)) :
    Rectangular.respond request slots =
      ⟨(Rectangular.solve problem.cost request.maximize).events.map .ofRectangular,
        .ok ⟨problem.precision, .solved (s.deliver slots names).2⟩, (s.deliver slots names).1⟩ := by
  simp only [Rectangular.respond, hprepare, hs]

theorem Rectangular.lt_of_mem_pairs {f : Format} {n m : ℕ} {cost : CostMatrix (Binary f) n m}
    {maximize : Bool} {s : Rectangular.Solution (Binary f) n m} {p : ℕ × ℕ}
    (hs : (Rectangular.solve cost maximize).outcome = .ok (.solved s)) (hp : p ∈ s.pairs) :
    p.1 < n ∧ p.2 < m := by
  obtain ⟨verdict, hverdict, hconcludes⟩ := Rectangular.exists_concludes cost maximize
  rw [hs] at hverdict
  cases hverdict
  cases hconcludes with
  | solved lists columns =>
    rw [lists.pairs_eq] at hp
    obtain ⟨q, -, rfl⟩ := List.mem_map.mp hp
    exact ⟨q.1.isLt, q.2.isLt⟩

/-- What becomes of an answer that goes to two outputs of the given sizes. The outputs have been
accepted, and they hold what is left of the halves afterwards. -/
def Request.Delivers (request : Request) (slots after : Slots) (sizes limits : ℕ → ℕ → ℕ × ℕ)
    (halves read : List ℤ × List ℤ) : Prop :=
  ∃ problem first second bits, request.outputs = some [first, second] ∧
    request.cost.toProblem request.shape request.precision = .ok problem ∧
    slots.Receives first (sizes problem.rows problem.columns).1 bits.1 ∧
    slots.Receives second (sizes problem.rows problem.columns).2 bits.2 ∧
    Slots.Delivers after (first, second) bits (limits problem.rows problem.columns) halves read

theorem Request.delivers_of_prepare {halves : List ℤ × List ℤ} {limits : ℕ → ℕ → ℕ × ℕ}
    (houtputs : request.outputs ≠ none)
    (hprepare : request.prepare slots sizes = .ok (problem, names))
    (hfirst : ∀ z ∈ halves.1, -1 ≤ z ∧ z < (limits problem.rows problem.columns).1)
    (hsecond : ∀ z ∈ halves.2, -1 ≤ z ∧ z < (limits problem.rows problem.columns).2) :
    request.Delivers slots (slots.deliver names halves).1 sizes limits halves
      (slots.deliver names halves).2 := by
  obtain ⟨outputs, houtputs⟩ := Option.ne_none_iff_exists'.mp houtputs
  obtain ⟨hproblem, haccept⟩ := Request.exists_of_prepare hprepare
  rw [houtputs] at haccept
  obtain ⟨first, second, bits, bits', rfl, rfl, ha, hb⟩ := Slots.exists_of_accept haccept
  exact ⟨problem, first, second, (bits, bits'), houtputs, hproblem, ha, hb,
    Slots.delivers_deliver ha hb hfirst hsecond⟩

variable {p : Precision}

theorem Dense.exists_delivers (houtputs : request.outputs ≠ none) {answer : Dense.Answer p.Number}
    (h : (Dense.respond request slots).outcome = .ok ⟨p, answer⟩) :
    ∃ plain, (Dense.respond { request with outputs := none } slots).outcome = .ok ⟨p, plain⟩ ∧
      answer = { plain with columnOfRow := answer.columnOfRow,
                            rowOfColumn := answer.rowOfColumn } ∧
      request.Delivers slots (Dense.respond request slots).slots Dense.outputSizes
        (fun n m => (m, n)) (plain.columnOfRow, plain.rowOfColumn)
        (answer.columnOfRow, answer.rowOfColumn) := by
  obtain ⟨problem, names, s, hprepare, hs⟩ := Dense.exists_of_respond h
  have hplain := Dense.respond_eq
    (Request.prepare_without_outputs slots (Request.exists_of_prepare hprepare).1) hs
  have hindex : ∀ {k l : ℕ} (line : Vector (Option (Fin k)) l),
      ∀ z ∈ line.toList.map indexOrMinusOne, -1 ≤ z ∧ z < k := by
    intro k l line z hz
    obtain ⟨o, -, rfl⟩ := List.mem_map.mp hz
    exact indexOrMinusOne_bounds o
  rw [Dense.respond_eq hprepare hs] at h ⊢
  cases h
  exact ⟨_, congrArg Response.outcome hplain, rfl,
    Request.delivers_of_prepare houtputs hprepare (hindex s.columnOf) (hindex s.rowOf)⟩

theorem Rectangular.exists_delivers (houtputs : request.outputs ≠ none)
    {answer : Rectangular.Answer p.Number}
    (h : (Rectangular.respond request slots).outcome = .ok ⟨p, .solved answer⟩) :
    ∃ plain, (Rectangular.respond { request with outputs := none } slots).outcome =
        .ok ⟨p, .solved plain⟩ ∧
      answer = { plain with rows := answer.rows, columns := answer.columns } ∧
      request.Delivers slots (Rectangular.respond request slots).slots Rectangular.outputSizes
        (fun n m => (n, m)) (plain.rows, plain.columns) (answer.rows, answer.columns) := by
  obtain ⟨problem, names, s, hprepare, hs⟩ := Rectangular.exists_of_respond h
  have hplain := Rectangular.respond_eq
    (Request.prepare_without_outputs slots (Request.exists_of_prepare hprepare).1) hs
  have hrows := forall_map_natCast_bounds fun q hq => (Rectangular.lt_of_mem_pairs hs hq).1
  have hcolumns := forall_map_natCast_bounds fun q hq => (Rectangular.lt_of_mem_pairs hs hq).2
  rw [Rectangular.respond_eq hprepare hs] at h ⊢
  cases h
  exact ⟨_, congrArg Response.outcome hplain, rfl,
    Request.delivers_of_prepare houtputs hprepare hrows hcolumns⟩

/-- What the outputs hold when either solver returns, against the answer of the same request without
outputs, which differs in nothing else. -/
theorem outputs_hold_answer (request : Request) (slots : Slots)
    (houtputs : request.outputs ≠ none) :
    (∀ p answer, (Dense.respond request slots).outcome = .ok ⟨p, answer⟩ →
      ∃ plain, (Dense.respond { request with outputs := none } slots).outcome = .ok ⟨p, plain⟩ ∧
        answer = { plain with columnOfRow := answer.columnOfRow,
                              rowOfColumn := answer.rowOfColumn } ∧
        request.Delivers slots (Dense.respond request slots).slots Dense.outputSizes
          (fun n m => (m, n)) (plain.columnOfRow, plain.rowOfColumn)
          (answer.columnOfRow, answer.rowOfColumn)) ∧
    ∀ p answer, (Rectangular.respond request slots).outcome = .ok ⟨p, .solved answer⟩ →
      ∃ plain, (Rectangular.respond { request with outputs := none } slots).outcome =
          .ok ⟨p, .solved plain⟩ ∧
        answer = { plain with rows := answer.rows, columns := answer.columns } ∧
        request.Delivers slots (Rectangular.respond request slots).slots Rectangular.outputSizes
          (fun n m => (n, m)) (plain.rows, plain.columns) (answer.rows, answer.columns) :=
  ⟨fun _ _ => Dense.exists_delivers houtputs, fun _ _ => Rectangular.exists_delivers houtputs⟩

section lastColumn

/-- A row of so many zeros and a lower last entry, with outputs for its column and for the row of
each column; only the first may be too narrow. -/
def lastColumn (k : ℕ) : Request where
  cost := .table ⟨⟨.signed 8, false⟩, [1, k + 1], List.replicate k (.whole 0) ++ [.whole (-1)]⟩
  outputs := some ["column", "rows"]

def lastColumnSlots (k : ℕ) : Slots :=
  [("column", .buffer ⟨⟨⟨.signed 8, false⟩, [1], [.whole 7]⟩, true⟩),
   ("rows", .buffer ⟨⟨⟨.signed 64, false⟩, [k + 1], List.replicate (k + 1) (.whole 7)⟩, true⟩)]

variable {k : ℕ} {after : Slots} {halves read : List ℤ × List ℤ}

theorem delivers_lastColumn (h : (lastColumn k).Delivers (lastColumnSlots k) after
      Dense.outputSizes (fun n m => (m, n)) halves read) :
    Slots.Delivers after ("column", "rows") (8, 64) (k + 1, 1) halves read := by
  obtain ⟨problem, first, second, ⟨bits, bits'⟩, houtputs, -, ⟨b, hb, hshape, hkind, -⟩,
    ⟨b', hb', hshape', hkind', -⟩, h⟩ := h
  obtain ⟨rfl, rfl⟩ : "column" = first ∧ "rows" = second := by simpa [lastColumn] using houtputs
  cases hb
  cases hb'
  cases hkind
  cases hkind'
  simp only [Dense.outputSizes, List.cons.injEq, and_true] at hshape hshape'
  rwa [← hshape, ← hshape'] at h

theorem exists_of_columns (request : Request) (slots : Slots) (columns : List ℤ)
    (h : ((Dense.respond request slots).outcome.toOption.map fun r => r.2.columnOfRow) =
      some columns) :
    ∃ p answer, (Dense.respond request slots).outcome = .ok ⟨p, answer⟩ ∧
      answer.columnOfRow = columns := by
  obtain ⟨⟨p, answer⟩, hanswer, hcolumns⟩ := Option.map_eq_some_iff.mp h
  exact ⟨p, answer, eq_ok_of_toOption hanswer, hcolumns⟩

/-- Words of eight bits hold the index of any of three columns. -/
theorem lastColumn_two_answer :
    ∃ p answer plain, (Dense.respond (lastColumn 2) (lastColumnSlots 2)).outcome = .ok ⟨p, answer⟩ ∧
      (Dense.respond { lastColumn 2 with outputs := none } (lastColumnSlots 2)).outcome =
        .ok ⟨p, plain⟩ ∧
      answer.columnOfRow = plain.columnOfRow ∧ answer.rowOfColumn = plain.rowOfColumn := by
  obtain ⟨p, answer, hanswer, -⟩ := exists_of_columns (lastColumn 2) (lastColumnSlots 2) [2]
    (by decide +kernel)
  obtain ⟨plain, hplain, -, h⟩ :=
    (outputs_hold_answer (lastColumn 2) (lastColumnSlots 2) (by simp [lastColumn])).1 p answer
      hanswer
  have hfaithful := (delivers_lastColumn h).faithful (by decide) (by decide) (by decide)
  exact ⟨p, answer, plain, hanswer, hplain, congrArg Prod.fst hfaithful,
    congrArg Prod.snd hfaithful⟩

/-- Words of eight bits do not hold the index of the last of 129 columns. -/
theorem lastColumn_wraps :
    ∃ p answer plain,
      (Dense.respond (lastColumn 128) (lastColumnSlots 128)).outcome = .ok ⟨p, answer⟩ ∧
      (Dense.respond { lastColumn 128 with outputs := none } (lastColumnSlots 128)).outcome =
        .ok ⟨p, plain⟩ ∧
      answer.columnOfRow = [-128] ∧ plain.columnOfRow = [128] := by
  obtain ⟨p, answer, hanswer, hcolumns⟩ := exists_of_columns (lastColumn 128) (lastColumnSlots 128)
    [-128] (by decide +kernel)
  obtain ⟨plain, hplain, -, h⟩ := Dense.exists_delivers (by simp [lastColumn]) hanswer
  have h := delivers_lastColumn h
  have hstored : plain.columnOfRow.map (ElementKind.signed 8).wrap = [-128] := by
    simpa [hcolumns] using (congrArg Prod.fst h.stored).symm
  obtain ⟨z, hz, hwrap⟩ := List.map_eq_singleton_iff.mp hstored
  have hbounds := h.first_bounds z (by simp [hz])
  have hdvd := ((Int.bmod_eq_iff (by decide)).mp hwrap).2.2
  have hlast : z = 128 := by
    simp only [Nat.pow_eq] at hdvd hbounds
    omega
  exact ⟨p, answer, plain, hanswer, hplain, hcolumns, hlast ▸ hz⟩

end lastColumn

end respond

end LinearAssignment
