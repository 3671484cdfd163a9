import LinearAssignment.Proofs.Binary.Reading
import LinearAssignment.Proofs.RelatedSum

/-! Negation of floating-point numbers. Rounding looks at magnitudes only, so a sum of negated
numbers is the negated sum except for the sign of a zero: numbers that cancel add up to the zero
that is not negative, and so do their negations. -/
namespace LinearAssignment.Binary

variable {f : Format} {x x' y y' : Binary f}

/-- Numbers of one magnitude and opposite signs, where the sign of a zero does not count, or NaN
both. -/
inductive Opposes : Binary f → Binary f → Prop
  | nan : Opposes nan nan
  | number {s t : Bool} {a : ℕ} {ha : f.Has a} (sign : t = (!s) ∨ a = 0) :
      Opposes (number s a ha) (number t a ha)

theorem opposes_neg (x : Binary f) : Opposes x (-x) := by
  cases x with
  | nan => exact .nan
  | number s a ha => exact .number (.inl rfl)

theorem Opposes.eq_neg_or_zero (h : Opposes x y) :
    x = -y ∨ (x == 0) = true ∧ (y == 0) = true := by
  cases h with
  | nan => exact .inl rfl
  | @number s t a ha sign =>
    rcases sign with rfl | rfl
    · left
      change Binary.number s a ha = .number (!!s) a ha
      rw [Bool.not_not]
    · right
      constructor
      · cases s <;> rfl
      · cases t <;> rfl

theorem signed_eq_neg_iff {s t : Bool} {a b : ℕ} :
    signed t b = -signed s a ↔ b = a ∧ (t = (!s) ∨ a = 0) := by
  cases s <;> cases t <;> simp [signed] <;> omega

theorem opposes_ofQuotient {s t : Bool} {a b : ℕ} (h : signed t b = -signed s a) :
    Opposes (ofQuotient s a 1 : Binary f) (ofQuotient t b 1) := by
  obtain ⟨rfl, hsign⟩ := signed_eq_neg_iff.mp h
  refine .number (hsign.imp_right ?_)
  rintro rfl
  exact Format.round_eq_self f.has_zero

section add

variable {s s' t t' : Bool} {a a' : ℕ} {ha : f.Has a} {ha' : f.Has a'}
  (hsign : t = (!s) ∨ a = 0) (hsign' : t' = (!s') ∨ a' = 0)
include hsign hsign'

theorem opposes_add_of_lt (hac : a < f.ceiling) (hac' : a' < f.ceiling) :
    Opposes (number s a ha + number s' a' ha') (number t a ha + number t' a' ha') := by
  obtain ⟨u, c, hc, hsum⟩ :
      ∃ u c, _ ∧ number s a ha + number s' a' ha' = (ofQuotient u c 1 : Binary f) :=
    exists_add_eq_ofQuotient hac hac'
  obtain ⟨v, d, hd, hsum'⟩ :
      ∃ v d, _ ∧ number t a ha + number t' a' ha' = (ofQuotient v d 1 : Binary f) :=
    exists_add_eq_ofQuotient hac hac'
  have hneg : signed t a = -signed s a := signed_eq_neg_iff.mpr ⟨rfl, hsign⟩
  have hneg' : signed t' a' = -signed s' a' := signed_eq_neg_iff.mpr ⟨rfl, hsign'⟩
  rw [hsum, hsum']
  exact opposes_ofQuotient (by omega)

/-- An infinite operand decides the sum, unless the other one is infinite with another sign. -/
theorem opposes_add_of_le (hle : f.ceiling ≤ a ∨ f.ceiling ≤ a') :
    Opposes (number s a ha + number s' a' ha') (number t a ha + number t' a' ha') := by
  have hpos : 0 < f.ceiling := Nat.two_pow_pos _
  change Opposes (add (number s a ha) (number s' a' ha')) (add (number t a ha) (number t' a' ha'))
  simp only [add]
  by_cases hac : f.ceiling ≤ a
  · simp only [if_pos hac]
    by_cases hac' : f.ceiling ≤ a'
    · obtain rfl := hsign.resolve_right (by omega)
      obtain rfl := hsign'.resolve_right (by omega)
      simp only [hac', true_and, ne_eq, Bool.not_inj_iff]
      split
      next => exact .nan
      next => exact .number hsign
    · simp only [hac', false_and, if_false]
      exact .number hsign
  · simp only [if_neg hac, if_pos (hle.resolve_left hac)]
    exact .number hsign'

end add

theorem Opposes.add (hx : Opposes x y) (hx' : Opposes x' y') : Opposes (x + x') (y + y') := by
  cases hx with
  | nan => exact .nan
  | @number s t a ha hsign =>
    cases hx' with
    | nan => exact .nan
    | @number s' t' a' ha' hsign' =>
      by_cases hlt : a < f.ceiling ∧ a' < f.ceiling
      · exact opposes_add_of_lt hsign hsign' hlt.1 hlt.2
      · exact opposes_add_of_le hsign hsign' (by omega)

theorem isAdditive_opposes : Cost.IsAdditive (Opposes : Binary f → Binary f → Prop) where
  zero := .number (.inr rfl)
  negZero := .number (.inr rfl)
  add := Opposes.add

end LinearAssignment.Binary
