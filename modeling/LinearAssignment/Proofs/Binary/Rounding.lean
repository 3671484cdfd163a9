import LinearAssignment.Proofs.Binary.Infinity
import Mathlib.Algebra.Order.Field.Basic

/-! Rounding to a format as a function of rational numbers. It is monotone and leaves the numbers of
the format as they are, so what is below after rounding has been below before. -/
namespace LinearAssignment

namespace Format

variable {f g : Format} {a b c d : ℕ}

section round

theorem le_divToEven (a b : ℕ) : a / b ≤ divToEven a b := by
  unfold divToEven
  dsimp only
  split
  · exact le_rfl
  · split <;> omega

theorem div_le_div_of_mul_le (hb : 0 < b) (hd : 0 < d) (h : a * d ≤ c * b) : a / b ≤ c / d := by
  rw [Nat.le_div_iff_mul_le hd]
  refine Nat.le_of_mul_le_mul_right ?_ hb
  calc a / b * d * b = a / b * b * d := Nat.mul_right_comm _ _ _
    _ ≤ a * d := Nat.mul_le_mul_right d (Nat.div_mul_le_self a b)
    _ ≤ c * b := h

theorem divToEven_le_divToEven (hb : 0 < b) (hd : 0 < d) (h : a * d ≤ c * b) :
    divToEven a b ≤ divToEven c d := by
  rcases (div_le_div_of_mul_le hb hd h).lt_or_eq with hlt | he
  · exact (divToEven_le a b).trans (hlt.trans_le (le_divToEven c d))
  · have hrest : a % b * d ≤ c % d * b := by
      have ha := Nat.div_add_mod a b
      have hc := Nat.div_add_mod c d
      rw [← ha, ← hc, ← he] at h
      linarith
    -- A tie cannot follow on a remainder beyond it, nor one before it on a tie.
    have hbefore : 2 * (c % d) < d → 2 * (a % b) < b := fun hlt => by
      by_contra hle
      nlinarith
    have hbeyond : b < 2 * (a % b) → d < 2 * (c % d) := fun hlt => by
      by_contra hle
      nlinarith
    unfold divToEven
    simp only [he]
    split_ifs <;> omega

variable (f)

theorem divToEven_mul_spacing_le (a b : ℕ) :
    divToEven a (b * f.spacing (a / b)) * f.spacing (a / b) ≤ 2 ^ ((a / b).log2 + 1) := by
  set x := a / b with hx
  have hscale : Binary.scale f x ≤ x.log2 + 1 := by
    unfold Binary.scale
    omega
  have hsplit : 2 ^ (x.log2 + 1) = 2 ^ (x.log2 + 1 - Binary.scale f x) * f.spacing x := by
    rw [Binary.spacing_eq, ← pow_add, Nat.sub_add_cancel hscale]
  rw [hsplit]
  refine Nat.mul_le_mul_right _ ((divToEven_le _ _).trans ?_)
  have hpos : 0 < f.spacing x := Nat.two_pow_pos _
  rw [← Nat.div_div_eq_div_mul, ← hx, Nat.succ_le_iff, Nat.div_lt_iff_lt_mul hpos, ← hsplit]
  exact Nat.lt_log2_self

theorem le_divToEven_mul_spacing (h : c / d ≠ 0) :
    2 ^ (c / d).log2 ≤ divToEven c (d * f.spacing (c / d)) * f.spacing (c / d) := by
  set y := c / d with hy
  have hscale : Binary.scale f y ≤ y.log2 := Nat.sub_le _ _
  have hsplit : 2 ^ y.log2 = 2 ^ (y.log2 - Binary.scale f y) * f.spacing y := by
    rw [Binary.spacing_eq, ← pow_add, Nat.sub_add_cancel hscale]
  rw [hsplit]
  refine Nat.mul_le_mul_right _ (le_trans ?_ (le_divToEven _ _))
  have hpos : 0 < f.spacing y := Nat.two_pow_pos _
  rw [← Nat.div_div_eq_div_mul, ← hy, Nat.le_div_iff_mul_le hpos, ← hsplit]
  exact Nat.log2_self_le h

/-- Rounding is monotone: within one spacing because the nearest integer is, and beyond that because
a power of two lies between. -/
theorem round_le_round (hb : 0 < b) (hd : 0 < d) (h : a * d ≤ c * b) :
    f.round a b ≤ f.round c d := by
  have hfloor := div_le_div_of_mul_le hb hd h
  unfold round
  refine min_le_min_left _ ?_
  rcases (Binary.scale_mono hfloor : Binary.scale f _ ≤ _).eq_or_lt with he | hlt
  · have hspacing : f.spacing (a / b) = f.spacing (c / d) := by
      rw [Binary.spacing_eq, Binary.spacing_eq, he]
    have hpos : 0 < f.spacing (c / d) := Nat.two_pow_pos _
    rw [hspacing]
    refine Nat.mul_le_mul_right _
      (divToEven_le_divToEven (Nat.mul_pos hb hpos) (Nat.mul_pos hd hpos) ?_)
    rw [← mul_assoc, ← mul_assoc]
    exact Nat.mul_le_mul_right _ h
  · have hlog : (a / b).log2 + 1 ≤ (c / d).log2 := by
      unfold Binary.scale at hlt
      omega
    have hne : c / d ≠ 0 := by
      rintro hzero
      simp [hzero] at hlog
    exact (f.divToEven_mul_spacing_le a b).trans
      ((Nat.pow_le_pow_right (by decide) hlog).trans (f.le_divToEven_mul_spacing hne))

theorem round_congr (hb : 0 < b) (hd : 0 < d) (h : a * d = c * b) : f.round a b = f.round c d :=
  le_antisymm (f.round_le_round hb hd h.le) (f.round_le_round hd hb h.ge)

end round

section nearest

variable (f)

def nearest (q : ℚ) : ℤ := Binary.signed (decide (q < 0)) (f.round q.num.natAbs q.den)

theorem signed_round (s : Bool) (a : ℕ) (hb : 0 < b) :
    Binary.signed s (f.round a b) = f.nearest (Binary.signed s a / b) := by
  have hcast : (0 : ℚ) < b := Nat.cast_pos.mpr hb
  rcases Nat.eq_zero_or_pos a with rfl | ha
  · have hzero : f.round 0 b = 0 := by simp [round, divToEven]
    have hzero' : f.round 0 1 = 0 := by simp [round, divToEven]
    cases s <;> simp [nearest, Binary.signed, hzero, hzero']
  · set q : ℚ := Binary.signed s a / b with hq
    have hsign : decide (q < 0) = s := by
      cases s with
      | false => simpa [hq, Binary.signed] using div_nonneg (Nat.cast_nonneg a) hcast.le
      | true =>
        refine decide_eq_true (div_neg_of_neg_of_pos ?_ hcast)
        simpa [Binary.signed] using ha
    have habs : |q| = a / b := by
      rw [hq, abs_div, abs_of_pos hcast]
      cases s <;> simp [Binary.signed]
    have hround : f.round a b = f.round q.num.natAbs q.den := by
      refine f.round_congr hb q.den_pos ?_
      have hden : (0 : ℚ) < q.den := Nat.cast_pos.mpr q.den_pos
      rw [← Rat.num_div_den q, abs_div, abs_of_pos hden, div_eq_div_iff hden.ne' hcast.ne',
        ← Int.cast_abs, Int.abs_eq_natAbs, Int.cast_natCast] at habs
      exact_mod_cast habs.symm
    rw [nearest, hsign, hround]

theorem round_le_of_abs_le {q r : ℚ} (h : |q| ≤ |r|) :
    f.round q.num.natAbs q.den ≤ f.round r.num.natAbs r.den := by
  refine f.round_le_round q.den_pos r.den_pos ?_
  rw [Rat.abs_def, Rat.abs_def, Rat.divInt_le_divInt (Int.natCast_pos.mpr q.den_pos)
    (Int.natCast_pos.mpr r.den_pos)] at h
  exact_mod_cast h

theorem nearest_le_nearest {q r : ℚ} (h : q ≤ r) : f.nearest q ≤ f.nearest r := by
  unfold nearest
  rcases lt_or_ge q 0 with hq | hq <;> rcases lt_or_ge r 0 with hr | hr
  · rw [decide_eq_true hq, decide_eq_true hr]
    exact neg_le_neg (Int.ofNat_le.mpr (f.round_le_of_abs_le (abs_le_abs_of_nonpos hr.le h)))
  · rw [decide_eq_true hq, decide_eq_false hr.not_gt]
    exact (neg_nonpos.mpr (Int.natCast_nonneg _)).trans (Int.natCast_nonneg _)
  · exact absurd (h.trans_lt hr) hq.not_gt
  · rw [decide_eq_false hq.not_gt, decide_eq_false hr.not_gt]
    exact Int.ofNat_le.mpr (f.round_le_of_abs_le (abs_le_abs_of_nonneg hq h))

theorem abs_nearest_le_abs_nearest {q r : ℚ} (h : |q| ≤ |r|) : |f.nearest q| ≤ |f.nearest r| := by
  have habs : ∀ p : ℚ, |f.nearest p| = f.round p.num.natAbs p.den := fun p => by
    unfold nearest Binary.signed
    split <;> simp
  rw [habs, habs]
  exact Int.ofNat_le.mpr (f.round_le_of_abs_le h)

variable {f}

theorem nearest_eq_self (h : f.Has a) (s : Bool) :
    f.nearest (Binary.signed s a) = Binary.signed s a := by
  have hround := f.signed_round s a Nat.one_pos
  rw [round_eq_self h, Nat.cast_one, div_one] at hround
  exact hround.symm

end nearest

structure Embeds (f g : Format) : Prop where
  fraction : f.fractionBits ≤ g.fractionBits
  quantum : f.quantumExponent ≤ g.quantumExponent
  span : f.span + (g.quantumExponent - f.quantumExponent) ≤ g.span

namespace Embeds

theorem refl (f : Format) : f.Embeds f :=
  ⟨le_rfl, le_rfl, by rw [Nat.sub_self, Nat.add_zero]⟩

theorem one_eq (h : f.Embeds g) : g.one = f.one * 2 ^ (g.quantumExponent - f.quantumExponent) := by
  change 2 ^ g.quantumExponent = 2 ^ f.quantumExponent * _
  rw [← pow_add, Nat.add_sub_cancel' h.quantum]

theorem lt_ceiling (h : f.Embeds g) (ha : a < f.ceiling) :
    a * 2 ^ (g.quantumExponent - f.quantumExponent) < g.ceiling := by
  calc a * 2 ^ (g.quantumExponent - f.quantumExponent)
      < 2 ^ f.span * 2 ^ (g.quantumExponent - f.quantumExponent) :=
        Nat.mul_lt_mul_of_pos_right ha (Nat.two_pow_pos _)
    _ = 2 ^ (f.span + (g.quantumExponent - f.quantumExponent)) := (pow_add _ _ _).symm
    _ ≤ 2 ^ g.span := Nat.pow_le_pow_right (by decide) h.span

theorem has (h : f.Embeds g) (hhas : f.Has a) (ha : a < f.ceiling) :
    g.Has (a * 2 ^ (g.quantumExponent - f.quantumExponent)) := by
  refine ⟨(h.lt_ceiling ha).le, ?_⟩
  have hdvd : 2 ^ Binary.scale f a ∣ a := Binary.spacing_eq f a ▸ hhas.2
  have hsignificand : a / 2 ^ Binary.scale f a ≤ 2 ^ (g.fractionBits + 1) :=
    (Binary.significand_lt f a).le.trans
      (Nat.pow_le_pow_right (by decide) (Nat.add_le_add_right h.fraction 1))
  have hscaled := g.spacing_dvd_mul hsignificand
    (e := Binary.scale f a + (g.quantumExponent - f.quantumExponent))
  rw [Nat.pow_eq, pow_add, ← mul_assoc, Nat.div_mul_cancel hdvd] at hscaled
  exact hscaled

end Embeds

theorem half_embeds : half.Embeds double := ⟨by decide, by decide, by decide⟩

theorem brain_embeds : brain.Embeds double := ⟨by decide, by decide, by decide⟩

theorem single_embeds : single.Embeds double := ⟨by decide, by decide, by decide⟩

end Format

theorem Precision.embeds (p : Precision) : p.format.Embeds .double := by
  cases p with
  | single => exact Format.single_embeds
  | double => exact .refl _

namespace Binary

variable {f g : Format} {bound : ℚ} {bids : ℕ} {x : Binary f} {q : ℚ}

theorem quanta_ofQuotient (s : Bool) (a : ℕ) {b : ℕ} (hb : 0 < b) :
    (ofQuotient s a b : Binary f).quanta = f.nearest (signed s a / b) :=
  f.signed_round s a hb

theorem quanta_ofInt (z : ℤ) : (ofInt z : Binary f).quanta = f.nearest (z * f.one) := by
  refine (quanta_ofQuotient _ _ Nat.one_pos).trans ?_
  rw [signed_natAbs_mul, Nat.cast_one, div_one, Int.cast_mul, Int.cast_natCast]

theorem quanta_eq (hx : (exact x : Exact bound bids) = .number q) :
    (x.quanta : ℚ) = q * f.one := by
  obtain ⟨s, a, ha, rfl, -, rfl⟩ := exact_eq_number hx
  exact (div_mul_cancel₀ _ (cast_one_pos f).ne').symm

theorem nearest_quanta (hx : (exact x : Exact bound bids) = .number q) :
    f.nearest (q * f.one) = x.quanta := by
  rw [← quanta_eq hx]
  obtain ⟨s, a, ha, rfl, -, -⟩ := exact_eq_number hx
  exact Format.nearest_eq_self ha s

theorem convert_of_lt {s : Bool} {a : ℕ} {ha : f.Has a} (h : a < f.ceiling) :
    (number s a ha).convert g = ofQuotient s (a * g.one) f.one :=
  if_neg h.not_ge

theorem convert_ceiling {s : Bool} {ha : f.Has f.ceiling} :
    (number s f.ceiling ha).convert g = number s g.ceiling g.has_ceiling :=
  if_pos le_rfl

theorem quanta_convert (hx : (exact x : Exact bound bids) = .number q) :
    (x.convert g).quanta = g.nearest (q * g.one) := by
  obtain ⟨s, a, ha, rfl, hlt, rfl⟩ := exact_eq_number hx
  have hsigned : (signed s (a * g.one) : ℚ) = signed s a * g.one := by
    cases s <;> simp [signed]
  have hone : 0 < f.one := Nat.two_pow_pos _
  rw [convert_of_lt hlt, quanta_ofQuotient _ _ hone, hsigned, div_mul_eq_mul_div]

/-- A number of a format that is embedded in another is not rounded. -/
theorem exact_convert (h : f.Embeds g) (hx : (exact x : Exact bound bids) = .number q) :
    (exact (x.convert g) : Exact bound bids) = .number q := by
  obtain ⟨s, a, ha, rfl, hlt, rfl⟩ := exact_eq_number hx
  have hpos := cast_one_pos f
  have hround : g.round (a * g.one) f.one =
      a * 2 ^ (g.quantumExponent - f.quantumExponent) := by
    rw [← Format.round_eq_self (h.has ha hlt)]
    refine g.round_congr (Nat.two_pow_pos _) Nat.one_pos ?_
    rw [h.one_eq]
    ring
  rw [convert_of_lt hlt, ofQuotient, exact_of_lt (hround.trans_lt (h.lt_ceiling hlt)), hround,
    h.one_eq]
  congr 1
  have hscaled : (0 : ℚ) < (f.one * 2 ^ (g.quantumExponent - f.quantumExponent) : ℕ) :=
    h.one_eq ▸ cast_one_pos g
  rw [div_eq_div_iff hscaled.ne' hpos.ne']
  cases s <;> simp [signed] <;> ring

theorem exists_of_isFinite (h : x.isFinite = true) :
    ∃ q, (exact x : Exact bound bids) = .number q := by
  cases x with
  | nan => exact nomatch h
  | number s a ha => exact ⟨_, exact_of_lt (of_decide_eq_true h)⟩

theorem exists_of_isFinite_convert (h : Cost.isFinite (x.convert g) = true) :
    ∃ q, (exact x : Exact bound bids) = .number q ∧
      (x.convert g).quanta = g.nearest (q * g.one) := by
  cases x with
  | nan => simp [convert, Cost.isFinite, LT.lt, below] at h
  | number s a ha =>
    rcases ha.1.lt_or_eq with hlt | rfl
    · have hx : (exact (number s a ha) : Exact bound bids) = .number _ := exact_of_lt hlt
      exact ⟨_, hx, quanta_convert hx⟩
    · rw [convert_ceiling, isFinite_number] at h
      exact absurd h (lt_irrefl _)

/-- What rounds to less than a number does is below the number. -/
theorem number_lt_of_lt_convert {y : Binary g} {t : Binary f}
    (hy : y.quanta = g.nearest (q * g.one)) (h : y < t.convert g) :
    (.number q : Exact bound bids) < t.exact := by
  obtain ⟨hynan, htnan⟩ := isNaN_of_lt h
  rw [lt_iff_quanta hynan htnan] at h
  cases t with
  | nan => simp [convert, Cost.isNaN, isNaN] at htnan
  | number s a ha =>
    rcases ha.1.lt_or_eq with hlt | rfl
    · have ht : (exact (number s a ha) : Exact bound bids) = .number _ := exact_of_lt hlt
      rw [quanta_convert ht, hy] at h
      rw [ht]
      refine Exact.number_lt.mpr (lt_of_mul_lt_mul_right ?_ (cast_one_pos g).le)
      exact lt_of_not_ge fun hle => (g.nearest_le_nearest hle).not_gt h
    · rw [convert_ceiling] at h
      rw [exact_of_le le_rfl]
      cases s with
      | false => rfl
      | true =>
        -- Nothing is below the lowest of all numbers.
        cases y with
        | nan => simp [Cost.isNaN, isNaN] at hynan
        | number t b hb =>
          have hlow := (signed_bounds t b).1
          have hb' : (b : ℤ) ≤ g.ceiling := Int.ofNat_le.mpr hb.1
          have hcast : signed t b < -(g.ceiling : ℤ) := h
          omega

/-- An integer that has been rounded keeps its order with the numbers of the format, and with every
number if it is one of these itself. -/
theorem lt_of_number_lt_ofInt {z : ℤ} (hfinite : (ofInt z : Binary f).isFinite = true)
    (h : (.number q : Exact bound bids) < exact (ofInt z : Binary f))
    (hexact : (∃ y : Binary f, (exact y : Exact bound bids) = .number q) ∨
      ∃ y : Binary f, (exact y : Exact bound bids) = .number z) : q < z := by
  obtain ⟨w, hw⟩ := exists_of_isFinite hfinite
  have hpos := cast_one_pos f
  have hround : w * f.one = f.nearest (z * f.one) := by rw [← quanta_eq hw, quanta_ofInt]
  rw [hw] at h
  have hqw : q < w := Exact.number_lt.mp h
  rcases hexact with ⟨y, hy⟩ | ⟨y, hy⟩
  · by_contra hzq
    have hle := f.nearest_le_nearest (mul_le_mul_of_nonneg_right (not_lt.mp hzq) hpos.le)
    rw [nearest_quanta hy] at hle
    have hcast : (f.nearest (z * f.one) : ℚ) ≤ y.quanta := Int.cast_le.mpr hle
    rw [← hround, quanta_eq hy] at hcast
    exact absurd hqw (le_of_mul_le_mul_right hcast hpos).not_gt
  · rw [nearest_quanta hy, quanta_eq hy] at hround
    exact hqw.trans_eq (mul_right_cancel₀ hpos.ne' hround)

end Binary

end LinearAssignment
