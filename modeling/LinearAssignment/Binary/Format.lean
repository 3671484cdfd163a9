/-!
Binary floating-point formats and rounding onto their grids.

Every finite number of a format is a whole multiple of its smallest positive number, the
*quantum*, so a magnitude is kept as a count of quanta. The first count that is too large
to be finite, the *ceiling*, stands for infinity. Rounding takes an exact quotient of
natural numbers to the nearest count that the format has, a tie going to the even
significand; a result beyond the largest finite count becomes the ceiling.
-/
namespace LinearAssignment

/-- A binary interchange format, given by the widths of its fraction and exponent fields. -/
structure Format where
  fractionBits : Nat
  exponentBits : Nat
  deriving DecidableEq

namespace Format

def half : Format := ⟨10, 5⟩

/-- The truncated single format: the exponent range of `single` with a short fraction. -/
def brain : Format := ⟨7, 8⟩

def single : Format := ⟨23, 8⟩

def double : Format := ⟨52, 11⟩

/-- The quantum of the format is `2 ^ (-quantumExponent)`. -/
def quantumExponent (f : Format) : Nat := Nat.pow 2 (f.exponentBits - 1) - 2 + f.fractionBits

def one (f : Format) : Nat := Nat.pow 2 f.quantumExponent

def span (f : Format) : Nat := Nat.pow 2 f.exponentBits - 2 + f.fractionBits

/-- The first count of quanta beyond the finite numbers. -/
def ceiling (f : Format) : Nat := Nat.pow 2 f.span

/-- The distance between neighbouring numbers of the format from `x` up to the next power
of two. -/
def spacing (f : Format) (x : Nat) : Nat := Nat.pow 2 (x.log2 - f.fractionBits)

/-- The counts of quanta that the format has, the ceiling included. -/
def Has (f : Format) (x : Nat) : Prop := x ≤ f.ceiling ∧ f.spacing x ∣ x

instance (f : Format) (x : Nat) : Decidable (f.Has x) :=
  inferInstanceAs (Decidable (x ≤ f.ceiling ∧ f.spacing x ∣ x))

def divToEven (a b : Nat) : Nat :=
  let q := a / b
  let r := a % b
  if 2 * r < b then q else if b < 2 * r then q + 1 else q + q % 2

/-- The count of quanta nearest to `a / b` that the format has. -/
def round (f : Format) (a b : Nat) : Nat :=
  let g := f.spacing (a / b)
  min f.ceiling (divToEven a (b * g) * g)

theorem divToEven_le (a b : Nat) : divToEven a b ≤ a / b + 1 := by
  unfold divToEven
  dsimp only
  split
  · omega
  · split <;> omega

theorem has_ceiling (f : Format) : f.Has f.ceiling := by
  refine ⟨Nat.le_refl _, ?_⟩
  unfold spacing ceiling
  rw [Nat.pow_eq, Nat.pow_eq, Nat.log2_two_pow]
  exact Nat.pow_dvd_pow 2 (Nat.sub_le _ _)

theorem has_zero (f : Format) : f.Has 0 := ⟨Nat.zero_le _, Nat.dvd_zero _⟩

/-- A significand of one bit more than the fraction, at any scale, is on the grid. -/
theorem spacing_dvd_mul (f : Format) {k e : Nat} (hk : k ≤ Nat.pow 2 (f.fractionBits + 1)) :
    f.spacing (k * Nat.pow 2 e) ∣ k * Nat.pow 2 e := by
  unfold spacing
  simp only [Nat.pow_eq] at hk ⊢
  rcases Nat.eq_zero_or_pos k with rfl | hpos
  · simp
  rcases Nat.lt_or_eq_of_le hk with hlt | rfl
  · refine Nat.dvd_trans (Nat.pow_dvd_pow 2 ?_) (Nat.dvd_mul_left _ _)
    have hne : k * 2 ^ e ≠ 0 := Nat.ne_of_gt (Nat.mul_pos hpos (Nat.two_pow_pos e))
    have : (k * 2 ^ e).log2 < f.fractionBits + 1 + e := by
      rw [Nat.log2_lt hne, Nat.pow_add]
      exact Nat.mul_lt_mul_of_pos_right hlt (Nat.two_pow_pos e)
    omega
  · rw [← Nat.pow_add, Nat.log2_two_pow]
    exact Nat.pow_dvd_pow 2 (Nat.sub_le _ _)

theorem has_round (f : Format) (a b : Nat) : f.Has (f.round a b) := by
  unfold round
  dsimp only
  rcases Nat.le_total f.ceiling (divToEven a (b * f.spacing (a / b)) * f.spacing (a / b)) with h | h
  · rw [Nat.min_eq_left h]
    exact f.has_ceiling
  · rw [Nat.min_eq_right h]
    refine ⟨h, f.spacing_dvd_mul ?_⟩
    refine Nat.le_trans (divToEven_le _ _) ?_
    rw [← Nat.div_div_eq_div_mul, Nat.succ_le_iff]
    generalize a / b = x
    unfold spacing
    rw [Nat.pow_eq, Nat.pow_eq, Nat.div_lt_iff_lt_mul (Nat.two_pow_pos _), ← Nat.pow_add]
    refine Nat.lt_of_lt_of_le (Nat.lt_log2_self (n := x)) (Nat.pow_le_pow_right (by decide) ?_)
    omega

end Format

end LinearAssignment
