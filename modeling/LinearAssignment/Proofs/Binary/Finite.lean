import LinearAssignment.Proofs.Binary.Infinity

/-! Finite numbers on their own. A finite number equals itself and nothing else of its value, no
larger one is the largest, and nothing is left of it when it is taken off itself. -/
namespace LinearAssignment.Binary

variable {f : Format} {x : Binary f}

theorem isFinite_zero : Cost.isFinite (0 : Binary f) = true :=
  isFinite_number.mpr (Nat.two_pow_pos _)

theorem isFinite_eq (x : Binary f) : x.isFinite = Cost.isFinite x := by
  cases x with
  | nan => simp [isFinite, Cost.isFinite, LT.lt, below]
  | number s a ha =>
    rw [Bool.eq_iff_iff, isFinite_number]
    exact decide_eq_true_iff

theorem isFinite_neg (h : Cost.isFinite x = true) : Cost.isFinite (-x) = true := by
  obtain ⟨s, a, ha, rfl, hlt⟩ := exists_number_of_isFinite h
  exact isFinite_number.mpr hlt

theorem isFinite_ite_neg (h : Cost.isFinite x = true) (negate : Bool) :
    Cost.isFinite (if negate then -x else x) = true := by
  cases negate
  · exact h
  · exact isFinite_neg h

theorem isNaN_of_isFinite (h : Cost.isFinite x = true) : Cost.isNaN x = false := by
  obtain ⟨s, a, ha, rfl, -⟩ := exists_number_of_isFinite h
  rfl

theorem not_lt_self (x : Binary f) : ¬ x < x := fun h => by
  have hx := (isNaN_of_lt h).1
  exact lt_irrefl _ ((lt_iff_quanta hx hx).mp h)

theorem beq_self_of_isFinite (h : Cost.isFinite x = true) : (x == x) = true := by
  obtain ⟨s, a, ha, rfl, -⟩ := exists_number_of_isFinite h
  exact decide_eq_true rfl

theorem sub_self_of_isFinite (h : Cost.isFinite x = true) : x - x = 0 := by
  obtain ⟨s, a, ha, rfl, hlt⟩ := exists_number_of_isFinite h
  change add (number s a ha) (number (!s) a ha) = zero
  simp [add, hlt.not_ge]

/-- A number below the ceiling has a significand of ones at most. -/
theorem le_largest_of_has {a w : ℕ} (hw : f.span = f.fractionBits + 1 + w) (ha : f.Has a)
    (hlt : a < f.ceiling) : a ≤ (2 ^ (f.fractionBits + 1) - 1) * 2 ^ w := by
  have hdvd : 2 ^ scale f a ∣ a := spacing_eq f a ▸ ha.2
  have hscale : scale f a ≤ w := by
    rcases Nat.eq_zero_or_pos a with rfl | hpos
    · simp [scale]
    · have hlog : a.log2 < f.span := (Nat.log2_lt hpos.ne').mpr hlt
      unfold scale
      omega
  calc a = a / 2 ^ scale f a * 2 ^ scale f a := (Nat.div_mul_cancel hdvd).symm
    _ ≤ (2 ^ (f.fractionBits + 1) - 1) * 2 ^ w :=
        Nat.mul_le_mul (Nat.le_sub_one_of_lt (significand_lt f a))
          (Nat.pow_le_pow_right (by decide) hscale)

theorem not_largest_lt_of_isFinite (hf : f.IsAmple) (h : Cost.isFinite x = true) :
    ¬ Cost.largest < x := by
  obtain ⟨s, a, ha, rfl, hlt⟩ := exists_number_of_isFinite h
  obtain ⟨w, hw⟩ : ∃ w, f.span = f.fractionBits + 1 + w := Nat.exists_eq_add_of_le (by
    unfold Format.IsAmple at hf
    omega)
  have hle : signed s a ≤ (largest : Binary f).quanta := by
    rw [quanta_largest f hw]
    exact (signed_bounds s a).2.trans (Int.ofNat_le.mpr (le_largest_of_has hw ha hlt))
  intro hlargest
  exact absurd (of_decide_eq_true hlargest) hle.not_gt

end LinearAssignment.Binary
