import LinearAssignment.Proofs.Binary.Rounding

/-! The operations on floating-point numbers as exact ones that are rounded once. The result is no
larger than a number of the format that the exact result does not pass, so it stays finite. -/
namespace LinearAssignment

namespace Binary

variable {f g : Format} {bound : ℚ} {bids : ℕ} {x y : Binary f} {q r : ℚ}

structure Rounds (x : Binary f) (q : ℚ) : Prop where
  isNaN : Cost.isNaN x = false
  quanta : x.quanta = f.nearest (q * f.one)

section operations

variable (hx : (exact x : Exact bound bids) = .number q)
  (hy : (exact y : Exact bound bids) = .number r)
include hx

theorem rounds_convert : Rounds (x.convert g) q where
  isNaN := by
    obtain ⟨s, a, ha, rfl, hlt, -⟩ := exact_eq_number hx
    rw [convert_of_lt hlt]
    rfl
  quanta := quanta_convert hx

theorem rounds_halve : Rounds x.halve (q / 2) := by
  obtain ⟨s, a, ha, rfl, hlt, rfl⟩ := exact_eq_number hx
  rw [halve, if_neg hlt.not_ge]
  refine ⟨rfl, (quanta_ofQuotient s a two_pos).trans ?_⟩
  rw [div_right_comm, div_mul_cancel₀ _ (cast_one_pos f).ne', Nat.cast_ofNat]

include hy

theorem rounds_add : Rounds (x + y) (q + r) := by
  obtain ⟨s, a, ha, rfl, hac, rfl⟩ := exact_eq_number hx
  obtain ⟨t, b, hb, rfl, hbc, rfl⟩ := exact_eq_number hy
  obtain ⟨u, c, hc, hsum⟩ :
      ∃ u c, _ ∧ number s a ha + number t b hb = (ofQuotient u c 1 : Binary f) :=
    exists_add_eq_ofQuotient hac hbc
  rw [hsum]
  refine ⟨rfl, (quanta_ofQuotient u c Nat.one_pos).trans ?_⟩
  rw [← add_div, div_mul_cancel₀ _ (cast_one_pos f).ne', hc, Int.cast_add, Nat.cast_one, div_one]

theorem rounds_mul : Rounds (x * y) (q * r) := by
  obtain ⟨s, a, ha, rfl, hac, rfl⟩ := exact_eq_number hx
  obtain ⟨t, b, hb, rfl, hbc, rfl⟩ := exact_eq_number hy
  change Rounds (mul (number s a ha) (number t b hb)) _
  rw [mul, if_neg (not_or.mpr ⟨hac.not_ge, hbc.not_ge⟩)]
  refine ⟨rfl, (quanta_ofQuotient _ _ (Nat.two_pow_pos _)).trans ?_⟩
  have hsigned : signed (s != t) (a * b) = signed s a * signed t b := by
    cases s <;> cases t <;> simp [signed]
  rw [hsigned, Int.cast_mul, div_mul_div_comm, ← div_div, div_mul_cancel₀ _ (cast_one_pos f).ne']
  rfl

end operations

theorem isFinite_iff_abs_quanta (h : Cost.isNaN x = false) :
    Cost.isFinite x = true ↔ |x.quanta| < f.ceiling := by
  cases x with
  | nan => simp [Cost.isNaN, isNaN] at h
  | number s a ha =>
    have habs : |signed s a| = a := by cases s <;> simp [signed]
    rw [isFinite_number, quanta, habs, Int.ofNat_lt]

namespace Rounds

theorem abs_quanta_le (hx : Rounds x q) (hy : Rounds y r) (h : |q| ≤ |r|) :
    |x.quanta| ≤ |y.quanta| := by
  rw [hx.quanta, hy.quanta]
  refine f.abs_nearest_le_abs_nearest ?_
  rw [abs_mul, abs_mul]
  exact mul_le_mul_of_nonneg_right h (abs_nonneg _)

theorem isFinite_of_abs_le (hx : Rounds x q) (hy : Rounds y r) (h : |q| ≤ |r|)
    (hfinite : Cost.isFinite y = true) : Cost.isFinite x = true := by
  rw [isFinite_iff_abs_quanta hy.isNaN] at hfinite
  rw [isFinite_iff_abs_quanta hx.isNaN]
  exact (hx.abs_quanta_le hy h).trans_lt hfinite

/-- Rounding does not pass a number of the format. -/
theorem exists_abs_le (hx : Rounds x q) (hy : (exact y : Exact bound bids) = .number r)
    (h : |q| ≤ |r|) : ∃ q', (exact x : Exact bound bids) = .number q' ∧ |q'| ≤ |r| := by
  have hrounds : Rounds y r := by
    refine ⟨?_, (nearest_quanta hy).symm⟩
    obtain ⟨s, a, ha, rfl, -, -⟩ := exact_eq_number hy
    rfl
  obtain ⟨q', hq'⟩ := isFinite_iff_exact.mp
    (hx.isFinite_of_abs_le hrounds h (isFinite_iff_exact.mpr ⟨r, hy⟩))
  have hle : |(x.quanta : ℚ)| ≤ |(y.quanta : ℚ)| := by
    exact_mod_cast hx.abs_quanta_le hrounds h
  rw [quanta_eq hq', quanta_eq hy, abs_mul, abs_mul, abs_of_pos (cast_one_pos f)] at hle
  exact ⟨q', hq', le_of_mul_le_mul_right hle (cast_one_pos f)⟩

end Rounds

/-- Rounding does not pass a power of two below the ceiling. -/
theorem Rounds.exists_le_two_pow {e : ℕ} (hx : Rounds x q) (hq : |q| ≤ 2 ^ e)
    (he : 2 ^ e * f.one < f.ceiling) :
    ∃ q', (exact x : Exact bound bids) = .number q' ∧ |q'| ≤ 2 ^ e := by
  have hhas : f.Has (2 ^ e * f.one) := by
    refine ⟨he.le, ?_⟩
    have hone : 2 ^ e * f.one = 1 * 2 ^ (e + f.quantumExponent) := by
      rw [one_mul, pow_add]
      rfl
    rw [hone]
    exact f.spacing_dvd_mul (Nat.one_le_two_pow)
  have hpower : (exact (number false (2 ^ e * f.one) hhas) : Exact bound bids) =
      .number (2 ^ e) := by
    rw [exact_of_lt he]
    congr 1
    rw [div_eq_iff (cast_one_pos f).ne']
    simp [signed]
  have habs : |(2 ^ e : ℚ)| = 2 ^ e := abs_of_pos (by positivity)
  rw [← habs] at hq ⊢
  exact hx.exists_abs_le hpower hq

end Binary

end LinearAssignment
