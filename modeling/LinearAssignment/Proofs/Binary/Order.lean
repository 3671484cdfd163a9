import LinearAssignment.Binary.Basic
import LinearAssignment.Proofs.CostOrder
import Mathlib.Data.Nat.Log

/-! The order of floating-point numbers. They compare as their counts of quanta do, and the bit
patterns of magnitudes are in the same order, so a number that is not positive can be lowered no
more often than there are patterns. -/
namespace LinearAssignment

namespace Binary

variable {f : Format} {x y : Binary f}

section encode

variable {a b : ℕ}

def scale (f : Format) (a : ℕ) : ℕ := a.log2 - f.fractionBits

theorem encode_eq (f : Format) (a : ℕ) :
    encode f a = scale f a * 2 ^ f.fractionBits + a / 2 ^ scale f a := rfl

theorem spacing_eq (f : Format) (a : ℕ) : f.spacing a = 2 ^ scale f a := rfl

theorem significand_lt (f : Format) (a : ℕ) : a / 2 ^ scale f a < 2 ^ (f.fractionBits + 1) := by
  rw [Nat.div_lt_iff_lt_mul (Nat.two_pow_pos _), ← pow_add]
  refine Nat.lt_log2_self.trans_le (Nat.pow_le_pow_right (by decide) ?_)
  unfold scale
  omega

theorem le_significand (h : 0 < scale f a) : 2 ^ f.fractionBits ≤ a / 2 ^ scale f a := by
  have ha : a ≠ 0 := by
    rintro rfl
    simp [scale] at h
  have hlog : f.fractionBits + scale f a = a.log2 := by
    unfold scale at h ⊢
    omega
  rw [Nat.le_div_iff_mul_le (Nat.two_pow_pos _), ← pow_add, hlog]
  exact Nat.log2_self_le ha

theorem scale_mono (h : a ≤ b) : scale f a ≤ scale f b := by
  unfold scale
  rw [Nat.log2_eq_log_two, Nat.log2_eq_log_two]
  exact Nat.sub_le_sub_right (Nat.log_mono_right h) _

theorem encode_lt_encode (hb : f.Has b) (h : a < b) : encode f a < encode f b := by
  rw [encode_eq, encode_eq]
  rcases (scale_mono h.le : scale f a ≤ scale f b).eq_or_lt with he | hlt
  · have hdvd : 2 ^ scale f b ∣ b := spacing_eq f b ▸ hb.2
    rw [he]
    exact Nat.add_lt_add_left (Nat.div_lt_div_of_lt_of_dvd hdvd h) _
  · calc scale f a * 2 ^ f.fractionBits + a / 2 ^ scale f a
        < scale f a * 2 ^ f.fractionBits + 2 ^ (f.fractionBits + 1) :=
          Nat.add_lt_add_left (significand_lt f a) _
      _ = (scale f a + 1) * 2 ^ f.fractionBits + 2 ^ f.fractionBits := by ring
      _ ≤ scale f b * 2 ^ f.fractionBits + b / 2 ^ scale f b :=
          Nat.add_le_add (Nat.mul_le_mul_right _ hlt) (le_significand (Nat.zero_lt_of_lt hlt))

/-- There are no more bit patterns of magnitudes than a cost can be lowered. -/
theorem encode_ceiling_le (f : Format) : encode f f.ceiling ≤ Cost.levels (Binary f) := by
  have hspan : f.span = (2 ^ f.exponentBits - 2) + f.fractionBits := rfl
  have hceiling : f.ceiling = 2 ^ f.span := rfl
  have hscale : scale f f.ceiling = 2 ^ f.exponentBits - 2 := by
    rw [scale, hceiling, Nat.log2_two_pow, hspan, Nat.add_sub_cancel]
  have hlevels : Cost.levels (Binary f) = 2 ^ (f.fractionBits + f.exponentBits + 1) := rfl
  rw [encode_eq, hscale, hceiling, hspan, pow_add, Nat.mul_div_cancel_left _ (Nat.two_pow_pos _),
    hlevels]
  calc (2 ^ f.exponentBits - 2) * 2 ^ f.fractionBits + 2 ^ f.fractionBits
      ≤ 2 ^ f.exponentBits * 2 ^ f.fractionBits + 2 ^ f.exponentBits * 2 ^ f.fractionBits :=
        Nat.add_le_add (Nat.mul_le_mul_right _ (Nat.sub_le _ _))
          (Nat.le_mul_of_pos_left _ (Nat.two_pow_pos _))
    _ = 2 ^ (f.fractionBits + f.exponentBits + 1) := by ring

end encode

def quanta : Binary f → ℤ
  | nan => 0
  | number s a _ => signed s a

/-- Without NaN the costs compare as their counts of quanta. -/
theorem isKeyed {ι : Type} {value : ι → Binary f} (h : ∀ i, Cost.isNaN (value i) = false) :
    Cost.IsKeyed value fun i => (value i).quanta where
  isNaN := h
  lt_iff i j := by
    have hi := h i
    have hj := h j
    cases hx : value i with
    | nan => simp [hx, Cost.isNaN, isNaN] at hi
    | number s a ha =>
      cases hy : value j with
      | nan => simp [hy, Cost.isNaN, isNaN] at hj
      | number t b hb => exact decide_eq_true_iff
  beq_iff i j := by
    have hi := h i
    have hj := h j
    cases hx : value i with
    | nan => simp [hx, Cost.isNaN, isNaN] at hi
    | number s a ha =>
      cases hy : value j with
      | nan => simp [hy, Cost.isNaN, isNaN] at hj
      | number t b hb => exact decide_eq_true_iff

theorem signed_bounds (s : Bool) (a : ℕ) : -(a : ℤ) ≤ signed s a ∧ signed s a ≤ a := by
  cases s <;> simp [signed]

theorem quanta_le_infinity (x : Binary f) : x.quanta ≤ (Cost.infinity : Binary f).quanta := by
  change x.quanta ≤ f.ceiling
  cases x with
  | nan => exact Int.natCast_nonneg _
  | number s a ha =>
    have hle : (a : ℤ) ≤ f.ceiling := by exact_mod_cast ha.1
    exact (signed_bounds s a).2.trans hle

/-- What a price can be in the course of a run: a number that is not positive. -/
structure IsPrice (x : Binary f) : Prop where
  isNaN : Cost.isNaN x = false
  nonpos : x.quanta ≤ 0

theorem isPrice_zero : IsPrice (0 : Binary f) := ⟨rfl, le_rfl⟩

theorem IsPrice.of_lt (hy : IsPrice y) (h : x < y) : IsPrice x := by
  cases x with
  | nan => exact absurd h (by simp [LT.lt, below])
  | number s a ha =>
    cases y with
    | nan => exact absurd h (by simp [LT.lt, below])
    | number t b hb =>
      have hlt : signed s a < signed t b := of_decide_eq_true h
      exact ⟨rfl, hlt.le.trans hy.nonpos⟩

theorem isNaN_sub (hx : Cost.isInvalid x = false) (hy : IsPrice y) :
    Cost.isNaN (x - y) = false := by
  cases x with
  | nan => simp [Cost.isInvalid, Cost.isNaN, isNaN] at hx
  | number s a ha =>
    cases y with
    | nan => exact absurd hy.isNaN (by simp [Cost.isNaN, isNaN])
    | number t b hb =>
      have hfinite : signed s a ≠ signed true f.ceiling := fun he => by
        have hinfinite : Cost.isInvalid (number s a ha) = true := decide_eq_true he
        rw [hx] at hinfinite
        exact absurd hinfinite (by simp)
      have hnonpos : signed t b ≤ 0 := hy.nonpos
      have hceiling : 0 < f.ceiling := Nat.two_pow_pos _
      have hle := ha.1
      have hsigns : ¬ (f.ceiling ≤ a ∧ f.ceiling ≤ b ∧ s ≠ !t) := by
        rintro ⟨hca, hcb, hst⟩
        cases s <;> cases t <;> simp [signed] at hfinite hnonpos hst <;> omega
      change isNaN (add (number s a ha) (number (!t) b hb)) = false
      unfold add
      simp only
      split_ifs <;> first | rfl | exact absurd ⟨‹_›, ‹_›⟩ hsigns

theorem isNaN_of_atMost (h : Cost.atMost x y = true) :
    Cost.isNaN x = false ∧ Cost.isNaN y = false := by
  cases x <;> cases y <;>
    first | exact ⟨rfl, rfl⟩ | simp [Cost.atMost, LT.lt, BEq.beq, below, same] at h

theorem isPrice_iff : IsPrice x ↔ Cost.atMost x 0 = true := by
  have hle : Cost.isNaN x = false → (Cost.atMost x 0 = true ↔ x.quanta ≤ 0) := fun hx => by
    have hkey : Cost.IsKeyed (fun b : Bool => if b then x else 0) _ :=
      isKeyed fun b => by cases b <;> first | rfl | exact hx
    exact hkey.atMost_iff true false
  exact ⟨fun h => (hle h.isNaN).mpr h.nonpos, fun h =>
    have hx := (isNaN_of_atMost h).1
    ⟨hx, (hle hx).mp h⟩⟩

instance : Cost.Ordered (Binary f) where
  exists_key := ⟨ℤ, inferInstance, quanta, quanta_le_infinity, isKeyed fun x => x.2⟩
  isNaN_infinity := rfl
  isNaN_of_atMost := isNaN_of_atMost
  isNaN_sub hx hy := isNaN_sub hx (isPrice_iff.mpr hy)

/-- How many bit patterns are left below a number that is not positive. -/
def headroom : Binary f → ℕ
  | nan => 0
  | number _ a _ => encode f f.ceiling - encode f a

theorem headroom_le (x : Binary f) : x.headroom ≤ Cost.levels (Binary f) := by
  cases x with
  | nan => exact Nat.zero_le _
  | number s a ha => exact (Nat.sub_le _ _).trans (encode_ceiling_le f)

theorem IsPrice.headroom_lt (hy : IsPrice y) (h : x < y) : x.headroom < y.headroom := by
  cases x with
  | nan => exact absurd h (by simp [LT.lt, below])
  | number s a ha =>
    cases y with
    | nan => exact absurd h (by simp [LT.lt, below])
    | number t b hb =>
      have hlt : signed s a < signed t b := of_decide_eq_true h
      have hnonpos : signed t b ≤ 0 := hy.nonpos
      have hba : b < a := by
        cases s <;> cases t <;> simp [signed] at hlt hnonpos <;> omega
      have hencode : encode f b < encode f a := encode_lt_encode ha hba
      have hceiling : encode f a ≤ encode f f.ceiling := by
        rcases ha.1.eq_or_lt with he | hlt
        · rw [he]
        · exact (encode_lt_encode f.has_ceiling hlt).le
      change encode f f.ceiling - encode f a < encode f f.ceiling - encode f b
      omega

end Binary

end LinearAssignment
