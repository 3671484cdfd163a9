import LinearAssignment.Proofs.Binary.Reading

/-! Infinity and NaN in sums. What is added to or taken from an infinite cost leaves it infinite or
makes it NaN, and neither is below any number. -/
namespace LinearAssignment.Binary

variable {f : Format} {x y : Binary f}

instance : Cost.LawfulInfinity (Binary f) := ⟨decide_eq_true rfl⟩

theorem isNaN_of_lt (h : x < y) : Cost.isNaN x = false ∧ Cost.isNaN y = false := by
  cases x with
  | nan => exact absurd h (by simp [LT.lt, below])
  | number s a ha =>
    cases y with
    | nan => exact absurd h (by simp [LT.lt, below])
    | number t b hb => exact ⟨rfl, rfl⟩

theorem lt_iff_quanta (hx : Cost.isNaN x = false) (hy : Cost.isNaN y = false) :
    x < y ↔ x.quanta < y.quanta := by
  have hkey : Cost.IsKeyed (fun b : Bool => if b then x else y) _ :=
    isKeyed fun b => by cases b <;> simp [hx, hy]
  exact hkey.lt_iff true false

theorem lt_trans {z : Binary f} (hxy : x < y) (hyz : y < z) : x < z := by
  obtain ⟨hx, hy⟩ := isNaN_of_lt hxy
  obtain ⟨-, hz⟩ := isNaN_of_lt hyz
  rw [lt_iff_quanta hx hy] at hxy
  rw [lt_iff_quanta hy hz] at hyz
  exact (lt_iff_quanta hx hz).mpr (hxy.trans hyz)

def IsHigh (x : Binary f) : Prop := Cost.isNaN x = true ∨ x = Cost.infinity

/-- Nothing of the kind is below anything. -/
theorem IsHigh.not_lt (h : IsHigh x) (y : Binary f) : ¬ x < y := by
  intro hlt
  obtain ⟨hx, hy⟩ := isNaN_of_lt hlt
  rcases h with hnan | rfl
  · rw [hx] at hnan
    exact absurd hnan (by simp)
  · rw [lt_iff_quanta hx hy] at hlt
    exact absurd hlt (quanta_le_infinity y).not_gt

theorem IsHigh.add (h : IsHigh x) (y : Binary f) : IsHigh (x + y) := by
  change IsHigh (Binary.add x y)
  cases y with
  | nan => cases x <;> exact .inl rfl
  | number t b hb =>
    rcases h with hnan | rfl
    · cases x with
      | nan => exact .inl rfl
      | number s a ha => exact absurd hnan (by simp [Cost.isNaN, isNaN])
    · change IsHigh (Binary.add (number false f.ceiling f.has_ceiling) (number t b hb))
      rw [Binary.add, if_pos le_rfl]
      split
      · exact .inl rfl
      · exact .inr rfl

theorem IsHigh.sub (h : IsHigh x) (y : Binary f) : IsHigh (x - y) := h.add (-y)

theorem IsHigh.add_left (h : IsHigh y) (x : Binary f) : IsHigh (x + y) := by
  change IsHigh (Binary.add x y)
  cases x with
  | nan => exact .inl rfl
  | number s a ha =>
    rcases h with hnan | rfl
    · cases y with
      | nan => exact .inl rfl
      | number t b hb => exact absurd hnan (by simp [Cost.isNaN, isNaN])
    · change IsHigh (Binary.add (number s a ha) (number false f.ceiling f.has_ceiling))
      rw [Binary.add]
      split
      next hle =>
        split
        next => exact .inl rfl
        next hsign =>
          refine .inr ?_
          obtain rfl : s = false := by simpa using hsign
          obtain rfl : a = f.ceiling := le_antisymm ha.1 hle
          rfl
      next => exact .inr (if_pos le_rfl)

theorem isFinite_number {s : Bool} {a : ℕ} {ha : f.Has a} :
    Cost.isFinite (number s a ha) = true ↔ a < f.ceiling := by
  have hle := ha.1
  have hpos : 0 < f.ceiling := Nat.two_pow_pos _
  rw [Cost.isFinite, Bool.and_eq_true, decide_eq_true_iff, decide_eq_true_iff]
  change below (number true f.ceiling _) (number s a ha) = true ∧
    below (number s a ha) (number false f.ceiling _) = true ↔ _
  simp only [below, decide_eq_true_eq]
  cases s <;> simp [signed] <;> omega

theorem exists_number_of_isFinite (h : Cost.isFinite x = true) :
    ∃ s a ha, x = number s a ha ∧ a < f.ceiling := by
  cases x with
  | nan => simp [Cost.isFinite, LT.lt, below] at h
  | number s a ha => exact ⟨s, a, ha, rfl, isFinite_number.mp h⟩

theorem not_isFinite_infinity : ¬ Cost.isFinite (Cost.infinity : Binary f) = true := fun h =>
  lt_irrefl _ (isFinite_number.mp h)

theorem isFinite_iff_exact {bound : ℚ} {bids : ℕ} :
    Cost.isFinite x = true ↔ ∃ q, (exact x : Exact bound bids) = .number q := by
  constructor
  · intro h
    obtain ⟨s, a, ha, rfl, hlt⟩ := exists_number_of_isFinite h
    exact ⟨_, exact_of_lt hlt⟩
  · rintro ⟨q, hq⟩
    obtain ⟨s, a, ha, rfl, hlt, -⟩ := exact_eq_number hq
    exact isFinite_number.mpr hlt

theorem isInvalid_of_isFinite (h : Cost.isFinite x = true) : Cost.isInvalid x = false := by
  obtain ⟨s, a, ha, rfl, hlt⟩ := exists_number_of_isFinite h
  have hne : signed s a ≠ signed true f.ceiling := by cases s <;> simp [signed] <;> omega
  exact decide_eq_false hne

theorem isFinite_or_isHigh (h : Cost.isInvalid x = false) : Cost.isFinite x = true ∨ IsHigh x := by
  cases x with
  | nan => exact .inr (.inl rfl)
  | number s a ha =>
    rcases ha.1.lt_or_eq with hlt | rfl
    · exact .inl (isFinite_number.mpr hlt)
    · cases s with
      | false => exact .inr (.inr rfl)
      | true =>
        have hinvalid : Cost.isInvalid (number true f.ceiling ha) = true :=
          decide_eq_true (p := signed true f.ceiling = signed true f.ceiling) rfl
        rw [h] at hinvalid
        exact absurd hinvalid (by simp)

theorem lt_infinity_of_isFinite (h : Cost.isFinite x = true) : x < Cost.infinity :=
  of_decide_eq_true (Bool.and_eq_true_iff.mp h).2

theorem infinity_beq_of_lt (h : x < y) : (x == Cost.infinity) = false := by
  rw [Bool.eq_false_iff]
  intro hbeq
  obtain ⟨hx, hy⟩ := isNaN_of_lt h
  cases x with
  | nan => simp [Cost.isNaN, isNaN] at hx
  | number s a ha =>
    have hquanta : (number s a ha).quanta = (Cost.infinity : Binary f).quanta :=
      of_decide_eq_true hbeq
    rw [lt_iff_quanta hx hy, hquanta] at h
    exact absurd h (quanta_le_infinity y).not_gt

theorem isFinite_add_of_has {s t : Bool} {a b : ℕ} {ha : f.Has a} {hb : f.Has b}
    (hac : a < f.ceiling) (hbc : b < f.ceiling) (h : f.Has (signed s a + signed t b).natAbs)
    (hlt : (signed s a + signed t b).natAbs < f.ceiling) :
    Cost.isFinite (number s a ha + number t b hb) = true := by
  have hsum : (exact (number s a ha + number t b hb) : Exact 0 0) = _ :=
    exact_add_of_has hac hbc h hlt
  exact isFinite_iff_exact.mpr ⟨_, hsum⟩

theorem isFinite_zero_add (hx : Cost.isFinite x = true) : Cost.isFinite (0 + x) = true := by
  obtain ⟨t, b, hb, rfl, hlt⟩ := exists_number_of_isFinite hx
  have hsum : (signed false 0 + signed t b).natAbs = b := by cases t <;> simp [signed]
  exact isFinite_add_of_has (Nat.two_pow_pos _) hlt (hsum.symm ▸ hb) (hsum.symm ▸ hlt)

theorem isFinite_sub_zero (hx : Cost.isFinite x = true) : Cost.isFinite (x - 0) = true := by
  obtain ⟨t, b, hb, rfl, hlt⟩ := exists_number_of_isFinite hx
  have hsum : (signed t b + signed true 0).natAbs = b := by cases t <;> simp [signed]
  exact isFinite_add_of_has hlt (Nat.two_pow_pos _) (hsum.symm ▸ hb) (hsum.symm ▸ hlt)

end LinearAssignment.Binary
