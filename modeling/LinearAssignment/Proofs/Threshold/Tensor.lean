import LinearAssignment.Proofs.Binary.Rounding
import LinearAssignment.Proofs.Threshold.Partition
import LinearAssignment.Threshold.Assignment

/-! Assigners on tensors of any type. Elements and threshold are rounded before they are compared,
once or twice, but rounding is monotone: what is below the threshold afterwards has been below it
before. Only a whole number as a threshold is rounded twice where an element is rounded once, and
then a pair at the threshold can get through, unless words have been compared as such first. -/
namespace LinearAssignment

abbrev Extended : Type := Exact 0 0

namespace Extended

def IsDouble (e : Extended) : Prop := ∃ x : Binary .double, x.exact = e

end Extended

def Scalar.exact : Scalar → Extended
  | whole z => .number z
  | real x => x.exact

namespace TensorType

def exact : (t : TensorType) → t.Value → Extended
  | half, x => Binary.exact x
  | brain, x => Binary.exact x
  | single, x => Binary.exact x
  | double, x => Binary.exact x
  | signed _, z => .number (Int.cast z)
  | unsigned _, z => .number (Int.cast z)
  | boolean, b => .number (Bool.toInt b)
  | complex _, x => Binary.exact x

def WordHolds (kind : ElementKind) (z : ℤ) : Prop :=
  ∃ low high, kind.range? = some (low, high) ∧ low ≤ z ∧ z < high

/-- Whether an element is one of the type. There are words of four lengths. -/
def Holds : (t : TensorType) → t.Value → Prop
  | signed bits, z => bits ∈ [8, 16, 32, 64] ∧ WordHolds (.signed bits) z
  | unsigned bits, z => bits ∈ [8, 16, 32, 64] ∧ WordHolds (.unsigned bits) z
  | _, _ => True

end TensorType

def Tensor.HasAt (t : Tensor) (columns : ℕ) (a : ℕ × ℕ) (q : ℚ) : Prop :=
  ∃ x, t.elements[a.1 * columns + a.2]? = some x ∧ t.type.exact x = .number q

namespace Scalar

/-- A threshold that has become a double keeps its order with any double, and with every number if
it has been a double itself. -/
theorem lt_exact_of_checkedDouble {threshold : Scalar} {t : Binary .double}
    (ht : threshold.checkedDouble = .ok t) {q : ℚ} (h : (.number q : Extended) < t.exact)
    (hdouble : Extended.IsDouble (.number q) ∨ threshold.exact.IsDouble) :
    .number q < threshold.exact := by
  cases threshold with
  | real x =>
    rw [← Except.ok.inj ht] at h
    exact h
  | whole z =>
    by_cases hfinite : (Binary.ofInt z : Binary .double).isFinite = true
    · rw [checkedDouble, if_pos hfinite] at ht
      rw [← Except.ok.inj ht] at h
      exact Exact.number_lt.mpr (Binary.lt_of_number_lt_ofInt hfinite h hdouble)
    · rw [checkedDouble, if_neg hfinite] at ht
      exact nomatch ht

end Scalar

namespace TensorType

variable {t : TensorType} {x : t.Value} {q : ℚ}

/-- An element that is finite as a cost is the number nearest to what it stands for. -/
theorem exists_of_isFinite_toNumber (h : Cost.isFinite (t.toNumber x) = true) :
    ∃ q, t.exact x = .number q ∧
      (t.toNumber x).quanta = t.precision.format.nearest (q * t.precision.format.one) := by
  have hword : ∀ z : ℤ,
      Cost.isFinite ((Binary.ofInt z : Binary .single).convert .single) = true →
        ((Binary.ofInt z : Binary .single).convert .single).quanta =
          Format.single.nearest (z * Format.single.one) := fun z hz => by
    obtain ⟨w, hw, hquanta⟩ :
        ∃ w, ((Binary.ofInt z : Binary .single).exact : Extended) = .number w ∧ _ :=
      Binary.exists_of_isFinite_convert hz
    rw [hquanta, Binary.nearest_quanta hw, Binary.quanta_ofInt]
  cases t with
  | half | brain | single | double | complex => exact Binary.exists_of_isFinite_convert h
  | signed bits => exact ⟨_, rfl, hword x h⟩
  | unsigned bits => exact ⟨_, rfl, hword x h⟩
  | boolean => exact ⟨_, rfl, hword x.toInt h⟩

end TensorType

theorem CostMatrix.getElem?_ofEntries {α : Type} {n m : ℕ} {entries : List α}
    (h : entries.toArray.size = n * m) (i : Fin n) (j : Fin m) :
    entries[i.val * m + j.val]? = some (ofEntries n m ⟨entries.toArray, h⟩)[i][j] := by
  have hlt : i.val * m + j.val < entries.length := by
    rw [List.size_toArray] at h
    exact h ▸ flatIndex_lt i j
  rw [List.getElem?_eq_getElem hlt, ofEntries, getElem_ofFn]
  rfl

namespace Solver

/-- What a solver returns is a partition, and the entries of the matches are below the threshold as
it has been rounded. -/
theorem exists_of_assignMatrix {n m : ℕ} {solver : Solver} {p : Precision}
    {cost : CostMatrix p.Number n m} {t : Binary .double} {r : PartialMatching}
    (h : (solver.assignMatrix ⟨p, n, m, cost⟩ t).outcome = .ok r) :
    r.IsPartition n m ∧ ∀ a ∈ r.matched, ∃ q : Fin n × Fin m, a = (q.1.val, q.2.val) ∧
      Cost.isFinite cost[q.1][q.2] = true ∧ cost[q.1][q.2] < t.convert p.format := by
  have hpartition : r.IsPartition n m ∧
      ∃ pairs, r = (cost.gate (Threshold.toCost t)).split pairs := by
    cases solver with
    | dense => exact Dense.isPartition_of_assign h
    | rectangular => exact Rectangular.isPartition_of_assign h
    | unspecified => exact nomatch h
  obtain ⟨hr, pairs, rfl⟩ := hpartition
  refine ⟨hr, fun a ha => ?_⟩
  obtain ⟨q, rfl, hq⟩ := CostMatrix.mem_matched_split ha
  rw [CostMatrix.getElem_gate] at hq
  exact ⟨q, rfl, (CostMatrix.isFinite_gateEntry_of Binary.not_isFinite_infinity).mp hq⟩

theorem exists_of_assignEntries {solver : Solver} {p : Precision} {n m : ℕ}
    {entries : List p.Number} {threshold : Scalar} {run : Run TraceRecord Failure PartialMatching}
    {r : PartialMatching} (h : solver.assignEntries p [n, m] entries threshold = .ok run)
    (hr : run.outcome = .ok r) :
    r.IsPartition n m ∧ ∃ t, threshold.checkedDouble = .ok t ∧ ∀ a ∈ r.matched,
      ∃ y, entries[a.1 * m + a.2]? = some y ∧ Cost.isFinite y = true ∧ y < t.convert p.format := by
  obtain ⟨t, ht, h⟩ := exists_of_bind_eq_ok h
  dsimp only at h
  by_cases hlength : entries.length = n * m
  · rw [Problem.ofEntries?, dif_pos hlength] at h
    rw [← Except.ok.inj h] at hr
    obtain ⟨hpartition, hmatched⟩ := exists_of_assignMatrix hr
    refine ⟨hpartition, t, ht, fun a ha => ?_⟩
    obtain ⟨⟨i, j⟩, rfl, hfinite, hlt⟩ := hmatched a ha
    exact ⟨_, CostMatrix.getElem?_ofEntries _ i j, hfinite, hlt⟩
  · rw [Problem.ofEntries?, dif_neg hlength] at h
    exact nomatch h

end Solver

namespace TensorType

variable {t : TensorType} {x : t.Value} {q : ℚ}

theorem isDouble_of_natAbs_le {z : ℤ} (hz : z.natAbs ≤ 2 ^ 53) :
    Extended.IsDouble (.number z) :=
  ⟨.ofInt z, Binary.exact_ofInt Precision.double.isAmple_format hz⟩

theorem natAbs_le_of_wordHolds {kind : ElementKind} {bits : ℕ} {z : ℤ} (h : WordHolds kind z)
    (hkind : kind = .signed bits ∨ kind = .unsigned bits) : z.natAbs ≤ 2 ^ bits := by
  obtain ⟨low, high, hrange, hlow, hhigh⟩ := h
  have hpow : (2 ^ (bits - 1) : ℤ) ≤ 2 ^ bits := pow_le_pow_right₀ (by decide) (Nat.sub_le _ _)
  have hcast : ((2 ^ bits : ℕ) : ℤ) = 2 ^ bits := Nat.cast_pow _ _
  rcases hkind with rfl | rfl
  · obtain ⟨rfl, rfl⟩ : -2 ^ (bits - 1) = low ∧ 2 ^ (bits - 1) = high :=
      Prod.mk.inj (Option.some.inj hrange)
    omega
  · obtain ⟨rfl, rfl⟩ : 0 = low ∧ 2 ^ bits = high := Prod.mk.inj (Option.some.inj hrange)
    omega

theorem isDouble_of_wordHolds {kind : ElementKind} {bits : ℕ} {z : ℤ} (h : WordHolds kind z)
    (hkind : kind = .signed bits ∨ kind = .unsigned bits) (hbits : bits ∈ [8, 16, 32, 64]) :
    Extended.IsDouble (.number z) ∨ bits = 64 := by
  by_cases hlong : bits = 64
  · exact .inr hlong
  · refine .inl (isDouble_of_natAbs_le ((natAbs_le_of_wordHolds h hkind).trans ?_))
    refine Nat.pow_le_pow_right (by decide) ?_
    simp only [List.mem_cons, List.not_mem_nil, or_false] at hbits
    omega

theorem isDouble_or_long (h : t.Holds x) (hq : t.exact x = .number q) :
    Extended.IsDouble (.number q) ∨ t = signed 64 ∨ t = unsigned 64 := by
  cases t with
  | half => exact .inl ⟨Binary.convert .double x, Binary.exact_convert Format.half_embeds hq⟩
  | brain => exact .inl ⟨Binary.convert .double x, Binary.exact_convert Format.brain_embeds hq⟩
  | single => exact .inl ⟨Binary.convert .double x, Binary.exact_convert Format.single_embeds hq⟩
  | double => exact .inl ⟨x, hq⟩
  | complex p =>
    cases p with
    | single => exact .inl ⟨Binary.convert .double x, Binary.exact_convert Format.single_embeds hq⟩
    | double => exact .inl ⟨x, hq⟩
  | boolean =>
    have hle : ∀ b : Bool, b.toInt.natAbs ≤ 2 ^ 53 := by decide
    exact .inl (hq ▸ isDouble_of_natAbs_le (hle x))
  | signed bits =>
    rw [← hq]
    exact (isDouble_of_wordHolds h.2 (.inl rfl) h.1).imp_right fun he => .inl (congrArg signed he)
  | unsigned bits =>
    rw [← hq]
    exact (isDouble_of_wordHolds h.2 (.inr rfl) h.1).imp_right fun he =>
      .inr (congrArg unsigned he)

/-- The low bits of a whole number, taken for a word with a sign, are no larger number. -/
theorem wrap_le {z : ℤ} (h : isComparable z = true) : (ElementKind.signed 64).wrap z ≤ z := by
  have hbounds : -2 ^ 63 ≤ z ∧ z < 2 ^ 64 := by
    rw [isComparable, Bool.and_eq_true, decide_eq_true_iff, decide_eq_true_iff] at h
    exact h
  rw [ElementKind.wrap, Int.bmod_def, Nat.pow_eq]
  split <;> omega

/-- Among words of 64 bits the first comparison is one of whole numbers. -/
theorem lt_of_isBelow_long {isBelow : Int → Bool} {x z : ℤ}
    (h : (signed 64).isBelow (.whole z) = .ok isBelow) (hz : isComparable z = true)
    (hx : isBelow x = true) : x < z := by
  have hbelow : isBelow = fun x : ℤ => decide (x < (ElementKind.signed 64).wrap z) :=
    (Except.ok.inj h).symm
  rw [hbelow] at hx
  exact (of_decide_eq_true hx).trans_le (wrap_le hz)

/-- Whatever passes a comparison with a whole number is a double or below that number. -/
theorem isDouble_or_lt {isBelow : t.Value → Bool} {z : ℤ} (hx : t.Holds x)
    (hq : t.exact x = .number q) (h : t.isBelow (.whole z) = .ok isBelow)
    (hz : isComparable z = true) (hbelow : isBelow x = true) :
    Extended.IsDouble (.number q) ∨ (.number q : Extended) < .number z := by
  rcases isDouble_or_long hx hq with hdouble | rfl | rfl
  · exact .inl hdouble
  · rw [← hq]
    exact .inr (Exact.number_lt.mpr (Int.cast_lt.mpr (lt_of_isBelow_long h hz hbelow)))
  · exact nomatch h

end TensorType

namespace Tensor

variable {t : Tensor}

theorem exists_of_gated {threshold : Scalar} {entries : List t.type.precision.Number}
    (h : t.gated threshold = .ok entries) :
    ∃ isBelow, t.type.isBelow threshold = .ok isBelow ∧
      (∀ z, threshold = .whole z → TensorType.isComparable z = true) ∧
      entries = t.elements.map fun x =>
        if (t.type.toBinary x).isFinite && isBelow x then t.type.toNumber x else .infinity := by
  unfold gated at h
  cases threshold with
  | real y =>
    obtain ⟨isBelow, hbelow, h⟩ := exists_of_bind_eq_ok h
    exact ⟨isBelow, hbelow, nofun, (Except.ok.inj h).symm⟩
  | whole z =>
    dsimp only at h
    by_cases hz : TensorType.isComparable z = true
    · rw [if_pos hz] at h
      obtain ⟨isBelow, hbelow, h⟩ := exists_of_bind_eq_ok h
      refine ⟨isBelow, hbelow, fun z' hz' => ?_, (Except.ok.inj h).symm⟩
      injection hz' with hz'
      exact hz' ▸ hz
    · rw [if_neg hz] at h
      exact nomatch h

/-- The entry of a match is the element at its place, which has passed the comparison. -/
theorem exists_of_gated_entry {isBelow : t.type.Value → Bool} {k : ℕ}
    {y : t.type.precision.Number}
    (h : (t.elements.map fun x =>
      if (t.type.toBinary x).isFinite && isBelow x then t.type.toNumber x else .infinity)[k]? =
        some y) (hy : Cost.isFinite y = true) :
    ∃ x, t.elements[k]? = some x ∧ y = t.type.toNumber x ∧ isBelow x = true := by
  rw [List.getElem?_map, Option.map_eq_some_iff] at h
  obtain ⟨x, hx, rfl⟩ := h
  split at hy
  next hpassed => exact ⟨x, hx, if_pos hpassed, (Bool.and_eq_true_iff.mp hpassed).2⟩
  next => exact absurd hy Binary.not_isFinite_infinity

end Tensor

/-- An assigner has nothing to match, or it calls its solver on what the comparison has left. -/
theorem Assigner.exists_of_apply {assigner : Assigner} {t : Tensor} {n m : ℕ}
    (hshape : t.shape = [n, m]) {result : Application} (h : assigner.apply t = .ok result) :
    result = .immediate (.ofMatches n m []) ∨
      ∃ entries run, t.gated assigner.threshold = .ok entries ∧
        assigner.solver.assignEntries t.type.precision [n, m] entries assigner.threshold =
          .ok run ∧ result = .called run := by
  unfold apply at h
  simp only [hshape, List.isEmpty_cons, Bool.false_eq_true, if_false] at h
  by_cases hempty : [n, m].contains 0 = true
  · rw [if_pos hempty] at h
    exact .inl (Except.ok.inj h).symm
  · rw [if_neg hempty] at h
    obtain ⟨entries, hentries, h⟩ := exists_of_bind_eq_ok h
    by_cases hsolver : assigner.solver = .unspecified
    · rw [if_pos hsolver] at h
      exact nomatch h
    · rw [if_neg hsolver] at h
      obtain ⟨run, hrun, h⟩ := exists_of_bind_eq_ok h
      exact .inr ⟨entries, run, hentries, hrun, (Except.ok.inj h).symm⟩

open TensorType in
/-- Whatever the type of a tensor is, the result below a threshold is a partition whose matches are
elements that are numbers. An assigner never matches one at or above the threshold. A solver by
itself does not either if the threshold is a double, as it is if it has been given as one; at other
whole numbers it may match an element that is no double either. -/
theorem assign_stays_below (t : Tensor) (n m : ℕ) (hshape : t.shape = [n, m])
    (helements : ∀ x ∈ t.elements, t.type.Holds x) (solver : Solver) (threshold : Scalar)
    (r : PartialMatching) :
    (∀ result, (Assigner.mk solver threshold).apply t = .ok result → result.outcome = .ok r →
      r.IsPartition n m ∧
        ∀ a ∈ r.matched, ∃ q, t.HasAt m a q ∧ .number q < threshold.exact) ∧
    (∀ run, solver.assign t threshold = .ok run → run.outcome = .ok r →
      r.IsPartition n m ∧
        ∀ a ∈ r.matched, ∃ q, t.HasAt m a q ∧
          (Extended.IsDouble (.number q) ∨ threshold.exact.IsDouble →
            .number q < threshold.exact)) := by
  constructor
  · intro result happly hr
    rcases Assigner.exists_of_apply hshape happly with rfl | ⟨entries, run, hgated, hrun, rfl⟩
    · rw [← Except.ok.inj hr]
      refine ⟨PartialMatching.isPartition_ofMatches List.nodup_nil List.nodup_nil ?_, ?_⟩ <;>
        exact fun a ha => absurd ha List.not_mem_nil
    · obtain ⟨isBelow, hbelow, hcomparable, rfl⟩ := Tensor.exists_of_gated hgated
      obtain ⟨hpartition, th, hth, hmatched⟩ := Solver.exists_of_assignEntries hrun hr
      refine ⟨hpartition, fun a ha => ?_⟩
      obtain ⟨y, hy, hfinite, hlt⟩ := hmatched a ha
      obtain ⟨x, hx, rfl, hpassed⟩ := Tensor.exists_of_gated_entry hy hfinite
      obtain ⟨q, hq, hquanta⟩ := exists_of_isFinite_toNumber hfinite
      refine ⟨q, ⟨x, hx, hq⟩, ?_⟩
      have hlt' : (.number q : Extended) < th.exact := Binary.number_lt_of_lt_convert hquanta hlt
      cases threshold with
      | real y => exact Scalar.lt_exact_of_checkedDouble hth hlt' (.inr ⟨y, rfl⟩)
      | whole z =>
        -- A long word that is no double has been compared as a word.
        have hheld := helements x (List.mem_of_getElem? hx)
        rcases isDouble_or_lt hheld hq hbelow (hcomparable z rfl) hpassed with hdouble | hltz
        · exact Scalar.lt_exact_of_checkedDouble hth hlt' (.inl hdouble)
        · exact hltz
  · intro run hrun hr
    unfold Solver.assign at hrun
    rw [hshape] at hrun
    obtain ⟨hpartition, th, hth, hmatched⟩ := Solver.exists_of_assignEntries hrun hr
    refine ⟨hpartition, fun a ha => ?_⟩
    obtain ⟨y, hy, hfinite, hlt⟩ := hmatched a ha
    rw [Tensor.numbers, List.getElem?_map, Option.map_eq_some_iff] at hy
    obtain ⟨x, hx, rfl⟩ := hy
    obtain ⟨q, hq, hquanta⟩ := exists_of_isFinite_toNumber hfinite
    exact ⟨q, ⟨x, hx, hq⟩,
      Scalar.lt_exact_of_checkedDouble hth (Binary.number_lt_of_lt_convert hquanta hlt)⟩

def Tensor.words (zs : List ℤ) : Tensor := ⟨.signed 64, [1, zs.length], zs⟩

/-- A whole number that no double equals. The double nearest to it lies midway between two numbers
in single precision and is rounded up, while the number itself is rounded down. -/
def brink : ℤ := 4611686843061108735

/-- An assigner does not match a word at the threshold, although it is the same number in single
precision as the one below. -/
theorem assign_words_stays_below :
    ∃ result r, (Assigner.mk .rectangular (.whole brink)).apply (.words [brink - 1, brink]) =
        .ok result ∧ result.outcome = .ok r ∧ r.IsPartition 1 2 ∧ r.matched = [(0, 0)] ∧
      ∀ a ∈ r.matched, ∃ q, (Tensor.words [brink - 1, brink]).HasAt 2 a q ∧
        .number q < (Scalar.whole brink).exact := by
  have hheld : ∀ z ∈ [brink - 1, brink], TensorType.WordHolds (.signed 64) z :=
    List.forall_mem_cons.mpr ⟨⟨_, _, rfl, by decide, by decide⟩,
      List.forall_mem_singleton.mpr ⟨_, _, rfl, by decide, by decide⟩⟩
  have hanswer : (((Assigner.mk .rectangular (.whole brink)).apply
      (.words [brink - 1, brink])).toOption.bind fun result => result.outcome.toOption) =
        some ⟨[(0, 0)], [], [1]⟩ := by
    decide +kernel
  obtain ⟨result, hresult, hr⟩ := Option.bind_eq_some_iff.mp hanswer
  have happly := eq_ok_of_toOption hresult
  have houtcome := eq_ok_of_toOption hr
  obtain ⟨hpartition, hbelow⟩ := (assign_stays_below (.words [brink - 1, brink]) 1 2 rfl
    (fun x hx => ⟨by decide, hheld x hx⟩) .rectangular (.whole brink) _).1 result happly houtcome
  exact ⟨result, _, happly, houtcome, hpartition, rfl, hbelow⟩

/-- A solver by itself matches a word at itself as the threshold. -/
theorem assign_word_reaches :
    ¬ ∀ run r, Solver.rectangular.assign (.words [brink]) (.whole brink) = .ok run →
      run.outcome = .ok r → ∀ a ∈ r.matched, ∃ q, (Tensor.words [brink]).HasAt 1 a q ∧
        .number q < (Scalar.whole brink).exact := by
  have hanswer : ((Solver.rectangular.assign (.words [brink]) (.whole brink)).toOption.bind
      fun run => run.outcome.toOption) = some ⟨[(0, 0)], [], []⟩ := by
    decide +kernel
  obtain ⟨run, hrun, hr⟩ := Option.bind_eq_some_iff.mp hanswer
  intro hbelow
  obtain ⟨q, ⟨x, hx, hq⟩, hlt⟩ :=
    hbelow run _ (eq_ok_of_toOption hrun) (eq_ok_of_toOption hr) (0, 0) List.mem_cons_self
  obtain rfl : brink = x := Option.some.inj hx
  rw [← hq] at hlt
  exact absurd (Exact.number_lt.mp hlt) (lt_irrefl _)

end LinearAssignment
