import LinearAssignment.Problem
import LinearAssignment.Proofs.Binary.Order
import LinearAssignment.Proofs.Reading

/-! Floating-point numbers read as rational ones. Integers of no more bits than the significand has
are numbers of the format, so an operation whose exact result is such an integer is not rounded. -/
namespace LinearAssignment

namespace Format

variable {f : Format}

theorem round_eq_self {a : ℕ} (h : f.Has a) : f.round a 1 = a := by
  have hdvd : f.spacing a ∣ a := h.2
  have hpos : 0 < f.spacing a := Nat.two_pow_pos _
  have hdiv : divToEven a (f.spacing a) = a / f.spacing a := by
    rw [divToEven, Nat.mod_eq_zero_of_dvd hdvd, mul_zero, if_pos hpos]
  rw [round, Nat.div_one, one_mul, hdiv, Nat.div_mul_cancel hdvd]
  exact min_eq_right h.1

/-- The integers of no more bits than the significand are far from the ceiling. -/
def IsAmple (f : Format) : Prop := f.fractionBits + 1 + f.quantumExponent < f.span

theorem has_whole (h : f.IsAmple) {k : ℕ} (hk : k ≤ 2 ^ (f.fractionBits + 1)) :
    f.Has (k * f.one) := by
  refine ⟨?_, f.spacing_dvd_mul hk⟩
  calc k * f.one ≤ 2 ^ (f.fractionBits + 1) * 2 ^ f.quantumExponent := Nat.mul_le_mul_right _ hk
    _ = 2 ^ (f.fractionBits + 1 + f.quantumExponent) := (pow_add _ _ _).symm
    _ ≤ 2 ^ f.span := Nat.pow_le_pow_right (by decide) h.le

theorem whole_lt_ceiling (h : f.IsAmple) {k : ℕ} (hk : k ≤ 2 ^ (f.fractionBits + 1)) :
    k * f.one < f.ceiling := by
  calc k * f.one ≤ 2 ^ (f.fractionBits + 1) * 2 ^ f.quantumExponent := Nat.mul_le_mul_right _ hk
    _ = 2 ^ (f.fractionBits + 1 + f.quantumExponent) := (pow_add _ _ _).symm
    _ < 2 ^ f.span := Nat.pow_lt_pow_right (by decide) h

end Format

/-- The numbers of both precisions reach far beyond the integers that their significands hold. -/
theorem Precision.isAmple_format (p : Precision) : p.format.IsAmple := by
  unfold Format.IsAmple
  cases p <;> decide

namespace Binary

variable {f : Format} {bound : ℚ} {bids : ℕ}

theorem cast_one_pos (f : Format) : (0 : ℚ) < f.one := Nat.cast_pos.mpr (Nat.two_pow_pos _)

def exact : Binary f → Exact bound bids
  | nan => .nan
  | number s a _ => if a < f.ceiling then .number (signed s a / f.one) else .infinite s

theorem exact_of_lt {s : Bool} {a : ℕ} {ha : f.Has a} (h : a < f.ceiling) :
    (exact (number s a ha) : Exact bound bids) = .number (signed s a / f.one) :=
  if_pos h

theorem exact_of_le {s : Bool} {a : ℕ} {ha : f.Has a} (h : f.ceiling ≤ a) :
    (exact (number s a ha) : Exact bound bids) = .infinite s :=
  if_neg h.not_gt

theorem exact_neg (x : Binary f) : (exact (-x) : Exact bound bids) = -exact x := by
  cases x with
  | nan => rfl
  | number s a ha =>
    change exact (number (!s) a ha) = Exact.neg (exact (number s a ha))
    rcases lt_or_ge a f.ceiling with h | h
    · rw [exact_of_lt h, exact_of_lt h, Exact.neg]
      cases s <;> simp [signed, neg_div]
    · rw [exact_of_le h, exact_of_le h, Exact.neg]

theorem exact_ofQuotient {s : Bool} {a : ℕ} (h : f.Has a) (hlt : a < f.ceiling) :
    (exact (ofQuotient s a 1 : Binary f) : Exact bound bids) = .number (signed s a / f.one) := by
  have hround := Format.round_eq_self h
  rw [ofQuotient, exact_of_lt (hround.trans_lt hlt), hround]

theorem signed_natAbs_mul (z : ℤ) (k : ℕ) :
    signed (decide (z < 0)) (z.natAbs * k) = z * k := by
  rw [signed]
  split
  next hneg =>
    have := of_decide_eq_true hneg
    rw [Nat.cast_mul, ← neg_mul]
    congr 1
    omega
  next hneg =>
    have : ¬ z < 0 := fun hlt => hneg (decide_eq_true hlt)
    rw [Nat.cast_mul]
    congr 1
    omega

/-- An integer of no more bits than the significand is converted as it is. -/
theorem exact_ofInt (h : f.IsAmple) {z : ℤ} (hz : z.natAbs ≤ 2 ^ (f.fractionBits + 1)) :
    (exact (ofInt z : Binary f) : Exact bound bids) = .number z := by
  change exact (ofQuotient _ (z.natAbs * f.one) 1) = _
  rw [exact_ofQuotient (Format.has_whole h hz) (Format.whole_lt_ceiling h hz), signed_natAbs_mul,
    Int.cast_mul, Int.cast_natCast, mul_div_cancel_right₀ _ (cast_one_pos f).ne']

theorem exists_add_eq_ofQuotient {s t : Bool} {a b : ℕ} {ha : f.Has a} {hb : f.Has b}
    (hac : a < f.ceiling) (hbc : b < f.ceiling) :
    ∃ (u : Bool) (c : ℕ), signed u c = signed s a + signed t b ∧
      number s a ha + number t b hb = (ofQuotient u c 1 : Binary f) := by
  change ∃ (u : Bool) (c : ℕ), _ ∧ add (number s a ha) (number t b hb) = _
  simp only [add, if_neg hac.not_ge, if_neg hbc.not_ge]
  split_ifs with hst hab hba
  · refine ⟨_, _, ?_, rfl⟩
    subst hst
    cases s <;> simp [signed]
    omega
  · refine ⟨_, _, ?_, rfl⟩
    cases s <;> cases t <;> simp [signed] at hst ⊢ <;> omega
  · refine ⟨_, _, ?_, rfl⟩
    cases s <;> cases t <;> simp [signed] at hst ⊢ <;> omega
  · refine ⟨false, 0, ?_, ?_⟩
    · cases s <;> cases t <;> simp [signed] at hst ⊢ <;> omega
    · simp only [ofQuotient, zero, Format.round_eq_self f.has_zero]

theorem exact_add_of_has {s t : Bool} {a b : ℕ} {ha : f.Has a} {hb : f.Has b}
    (hac : a < f.ceiling) (hbc : b < f.ceiling) (h : f.Has (signed s a + signed t b).natAbs)
    (hlt : (signed s a + signed t b).natAbs < f.ceiling) :
    (exact (number s a ha + number t b hb) : Exact bound bids) =
      .number ((signed s a + signed t b : ℤ) / f.one) := by
  obtain ⟨u, c, hc, hsum⟩ :
      ∃ u c, _ ∧ number s a ha + number t b hb = (ofQuotient u c 1 : Binary f) :=
    exists_add_eq_ofQuotient hac hbc
  have hc' : (signed s a + signed t b).natAbs = c := by
    rw [← hc]
    cases u <;> simp [signed]
  rw [hc'] at h hlt
  rw [hsum, exact_ofQuotient h hlt, hc]

theorem exact_eq_number {x : Binary f} {q : ℚ} (h : (exact x : Exact bound bids) = .number q) :
    ∃ s a ha, x = number s a ha ∧ a < f.ceiling ∧ q = signed s a / f.one := by
  cases x with
  | nan => simp [exact] at h
  | number s a ha =>
    rcases lt_or_ge a f.ceiling with hlt | hle
    · rw [exact_of_lt hlt, Exact.number.injEq] at h
      exact ⟨s, a, ha, rfl, hlt, h.symm⟩
    · simp [exact_of_le hle] at h

theorem exact_add (h : f.IsAmple) {N : ℕ} (hN : N ≤ 2 ^ (f.fractionBits + 1)) {x y : Binary f}
    (hxy : (exact x + exact y : Exact bound bids).Meets fun q => ∃ z : ℤ, q = z ∧ |z| ≤ N) :
    (exact (x + y) : Exact bound bids) = exact x + exact y := by
  obtain ⟨q, hq, z, rfl, hz⟩ := hxy
  obtain ⟨c, d, hc, hd, hcd⟩ := Exact.add_eq_number hq
  obtain ⟨s, a, ha, rfl, hac, rfl⟩ := exact_eq_number hc
  obtain ⟨t, b, hb, rfl, hbc, rfl⟩ := exact_eq_number hd
  have hone := (cast_one_pos f).ne'
  have hsum : signed s a + signed t b = z * f.one := by
    rw [← add_div, eq_div_iff hone] at hcd
    exact_mod_cast hcd.symm
  have habs : (signed s a + signed t b).natAbs = z.natAbs * f.one := by
    rw [hsum, Int.natAbs_mul, Int.natAbs_natCast]
  have hle : z.natAbs ≤ 2 ^ (f.fractionBits + 1) := by
    rw [Int.abs_eq_natAbs] at hz
    omega
  rw [exact_add_of_has hac hbc (habs ▸ Format.has_whole h hle)
    (habs ▸ Format.whole_lt_ceiling h hle), hq, hsum, Int.cast_mul, Int.cast_natCast,
    mul_div_cancel_right₀ _ hone]

variable {s t : Bool} {a b : ℕ}

theorem div_one_lt_div_one (x y : ℤ) : (x / f.one : ℚ) < y / f.one ↔ x < y := by
  rw [div_lt_div_iff_of_pos_right (cast_one_pos f), Int.cast_lt]

theorem div_one_inj (x y : ℤ) : (x / f.one : ℚ) = y / f.one ↔ x = y := by
  rw [div_left_inj' (cast_one_pos f).ne', Int.cast_inj]

/-- The numbers compare as what they stand for, since all infinities of one sign are one. -/
theorem below_exact (ha : f.Has a) (hb : f.Has b) :
    Exact.below (exact (number s a ha) : Exact bound bids) (exact (number t b hb)) =
      decide (signed s a < signed t b) := by
  have hac := ha.1
  have hbc := hb.1
  have hpos : 0 < f.ceiling := Nat.two_pow_pos _
  rcases hac.lt_or_eq with hac | rfl <;> rcases hbc.lt_or_eq with hbc | rfl
  · rw [exact_of_lt hac, exact_of_lt hbc, Exact.below]
    simp only [div_one_lt_div_one]
  · rw [exact_of_lt hac, exact_of_le le_rfl, Exact.below]
    cases s <;> cases t <;> simp [signed] <;> omega
  · rw [exact_of_le le_rfl, exact_of_lt hbc, Exact.below]
    cases s <;> cases t <;> simp [signed]
    all_goals omega
  · rw [exact_of_le le_rfl, exact_of_le le_rfl, Exact.below]
    cases s <;> cases t <;> simp [signed]
    all_goals omega

theorem same_exact (ha : f.Has a) (hb : f.Has b) :
    Exact.same (exact (number s a ha) : Exact bound bids) (exact (number t b hb)) =
      decide (signed s a = signed t b) := by
  have hac := ha.1
  have hbc := hb.1
  have hpos : 0 < f.ceiling := Nat.two_pow_pos _
  rcases hac.lt_or_eq with hac | rfl <;> rcases hbc.lt_or_eq with hbc | rfl
  · rw [exact_of_lt hac, exact_of_lt hbc, Exact.same]
    simp only [div_one_inj]
  · rw [exact_of_lt hac, exact_of_le le_rfl]
    cases s <;> cases t <;> simp [Exact.same, signed] <;> omega
  · rw [exact_of_le le_rfl, exact_of_lt hbc]
    cases s <;> cases t <;> simp [Exact.same, signed] <;> omega
  · rw [exact_of_le le_rfl, exact_of_le le_rfl, Exact.same]
    cases s <;> cases t <;> simp [signed]
    all_goals omega

theorem exact_lt_iff (x y : Binary f) : (exact x : Exact bound bids) < exact y ↔ x < y := by
  change Exact.below _ _ = true ↔ below _ _ = true
  cases x with
  | nan => exact Iff.rfl
  | number s a ha =>
    cases y with
    | nan => cases (exact (number s a ha) : Exact bound bids) <;> exact Iff.rfl
    | number t b hb => rw [below_exact, below]

theorem exact_beq (x y : Binary f) : ((exact x : Exact bound bids) == exact y) = (x == y) := by
  change Exact.same _ _ = same _ _
  cases x with
  | nan => rfl
  | number s a ha =>
    cases y with
    | nan => cases (exact (number s a ha) : Exact bound bids) <;> rfl
    | number t b hb => rw [same_exact, same]

theorem isNaN_exact (x : Binary f) : Cost.isNaN (exact x : Exact bound bids) = Cost.isNaN x := by
  cases x with
  | nan => rfl
  | number s a ha =>
    change Exact.isNaN (if a < f.ceiling then _ else _) = false
    split <;> rfl

theorem quanta_largest (f : Format) {w : ℕ} (hw : f.span = f.fractionBits + 1 + w) :
    (largest : Binary f).quanta = ((2 ^ (f.fractionBits + 1) - 1) * 2 ^ w : ℕ) := by
  have hceiling : f.ceiling = 2 ^ (f.fractionBits + 1) * 2 ^ w := by
    rw [← pow_add, ← hw]
    rfl
  have hlog : (f.ceiling - 1).log2 = f.fractionBits + w := by
    have hpow : f.ceiling = 2 ^ (f.fractionBits + w) * 2 := by
      rw [hceiling]
      ring
    have hpos := Nat.two_pow_pos (f.fractionBits + w)
    rw [Nat.log2_eq_iff (by omega), pow_succ]
    omega
  have hspacing : f.spacing (f.ceiling - 1) = 2 ^ w := by
    rw [spacing_eq, scale, hlog, Nat.add_sub_cancel_left]
  have hmagnitude :
      f.ceiling - f.spacing (f.ceiling - 1) = (2 ^ (f.fractionBits + 1) - 1) * 2 ^ w := by
    rw [hspacing, hceiling, Nat.sub_mul, one_mul]
  have hhas : f.Has ((2 ^ (f.fractionBits + 1) - 1) * 2 ^ w) := by
    refine ⟨?_, f.spacing_dvd_mul (Nat.sub_le _ _)⟩
    rw [hceiling]
    exact Nat.mul_le_mul_right _ (Nat.sub_le _ _)
  change signed false (f.round _ 1) = _
  rw [hmagnitude, Format.round_eq_self hhas]
  rfl

theorem whole_le_largest (h : f.IsAmple) {w : ℕ} (hw : f.span = f.fractionBits + 1 + w) :
    2 ^ (f.fractionBits + 1) * f.one ≤ (2 ^ (f.fractionBits + 1) - 1) * 2 ^ w := by
  have hwide : f.fractionBits + 1 + f.quantumExponent ≤ f.fractionBits + w := by
    unfold Format.IsAmple at h
    omega
  have hpos := Nat.two_pow_pos f.fractionBits
  calc 2 ^ (f.fractionBits + 1) * f.one = 2 ^ (f.fractionBits + 1 + f.quantumExponent) :=
        (pow_add _ _ _).symm
    _ ≤ 2 ^ (f.fractionBits + w) := Nat.pow_le_pow_right (by decide) hwide
    _ = 2 ^ f.fractionBits * 2 ^ w := pow_add _ _ _
    _ ≤ (2 ^ (f.fractionBits + 1) - 1) * 2 ^ w :=
        Nat.mul_le_mul_right _ (by rw [pow_succ]; omega)

/-- The largest number is beyond the integers of no more bits than the significand. -/
theorem not_largest_lt (h : f.IsAmple) {N : ℕ} (hN : N ≤ 2 ^ (f.fractionBits + 1)) {x : Binary f}
    {z : ℤ} (hx : (exact x : Exact bound bids) = .number z) (hz : |z| ≤ N) :
    ¬ Cost.largest < x := by
  obtain ⟨s, a, ha, rfl, -, hza⟩ := exact_eq_number hx
  obtain ⟨w, hw⟩ : ∃ w, f.span = f.fractionBits + 1 + w := Nat.exists_eq_add_of_le (by
    unfold Format.IsAmple at h
    omega)
  rw [eq_div_iff (cast_one_pos f).ne'] at hza
  have hsigned : z * f.one = signed s a := by exact_mod_cast hza
  have hle : z ≤ (2 ^ (f.fractionBits + 1) : ℕ) :=
    ((le_abs_self z).trans hz).trans (Int.ofNat_le.mpr hN)
  have hquanta : signed s a ≤ (largest : Binary f).quanta := by
    rw [quanta_largest f hw, ← hsigned]
    calc z * (f.one : ℤ) ≤ (2 ^ (f.fractionBits + 1) : ℕ) * (f.one : ℤ) :=
          mul_le_mul_of_nonneg_right hle (Int.natCast_nonneg _)
      _ ≤ ((2 ^ (f.fractionBits + 1) - 1) * 2 ^ w : ℕ) := by
          exact_mod_cast whole_le_largest h hw
  intro hlt
  exact absurd (of_decide_eq_true hlt) hquanta.not_gt

/-- The numbers of a format read as exact as long as results are integers of no more bits than the
significand. -/
theorem isReading_exact (h : f.IsAmple) {N : ℕ} (hN : N ≤ 2 ^ (f.fractionBits + 1))
    (hbound : (N : ℚ) ≤ bound) :
    Cost.IsReading (exact : Binary f → Exact bound (Cost.levels (Binary f)))
      fun q => ∃ z : ℤ, q = z ∧ |z| ≤ N where
  zero := (exact_of_lt (Nat.two_pow_pos _)).trans (by simp [signed]; rfl)
  infinity := exact_of_le le_rfl
  levels := rfl
  isNaN := isNaN_exact
  lt_iff := exact_lt_iff
  beq_eq := exact_beq
  add := exact_add h hN
  sub {x y} hxy := by
    have hneg : (exact (-y) : Exact bound (Cost.levels (Binary f))) = -exact y := exact_neg y
    have hadd : (exact (x + -y) : Exact bound _) = exact x + exact (-y) :=
      exact_add h hN (by rw [hneg]; exact hxy)
    rw [hneg] at hadd
    exact hadd
  not_largest_lt {x} hx := by
    obtain ⟨q, hq, z, rfl, hz⟩ := hx
    refine ⟨not_largest_lt h hN hq hz, ?_⟩
    rw [hq]
    have hle : (z : ℚ) ≤ N := by exact_mod_cast (le_abs_self z).trans hz
    exact fun hlt => absurd (Exact.number_lt.mp hlt) (hle.trans hbound).not_gt

end Binary

end LinearAssignment
