import LinearAssignment.Proofs.Threshold.Assignment

/-! A higher threshold loses no matches. Each of two thresholds prefers its own matching to that of
the other, and together the two preferences leave nothing but the numbers of pairs to compare; so it
does not matter by which solver, or by which of the best matchings, either problem is solved. -/
namespace LinearAssignment

variable {bound : ℚ} {bids n m : ℕ} {cost : CostMatrix (Exact bound bids) n m} {limit limit' : ℚ}
  {S T : Finset (Fin n × Fin m)}

namespace CostMatrix

/-- Either matching is the better one at its own limit. What the two inequalities add up to is free
of costs: the difference of the limits times that of the numbers of pairs. -/
theorem IsLeast.card_le (hS : cost.IsLeast limit S) (hT : cost.IsLeast limit' T)
    (hlt : limit < limit') : S.card ≤ T.card := by
  have hlow := hS.least T hT.toIsMatching
  have hhigh := hT.least S hS.toIsMatching
  rw [excess_eq, excess_eq] at hlow hhigh
  have hmul : (limit' - limit) * S.card ≤ (limit' - limit) * T.card := by linarith
  exact_mod_cast le_of_mul_le_mul_left hmul (sub_pos.mpr hlt)

end CostMatrix

/-- Some result is returned, and it has no fewer matches than any matching of least excess over the
limit has pairs. -/
def KeepsMatches (cost : CostMatrix (Exact bound bids) n m) (limit : ℚ)
    (Result : PartialMatching → Prop) : Prop :=
  ∃ r, Result r ∧ ∀ S, cost.IsLeast limit S → S.card ≤ r.matched.length

theorem keepsMatches_of_isLeast {Result : PartialMatching → Prop} (hlt : limit < limit')
    (h : ∃ r T, Result r ∧ r.Lists T ∧ cost.IsLeast limit' T ∧
      ∀ p ∈ T, cost[p.1][p.2] < .number limit') : KeepsMatches cost limit Result := by
  obtain ⟨r, T, hr, hlists, hleast, -⟩ := h
  exact ⟨r, hr, fun S hS => hlists.length_eq ▸ hS.card_le hleast hlt⟩

theorem keepsMatches_of_isLargest {Result : PartialMatching → Prop}
    (h : ∃ r T, Result r ∧ r.Lists T ∧ cost.IsLargest T) : KeepsMatches cost limit Result := by
  obtain ⟨r, T, hr, hlists, hlargest⟩ := h
  exact ⟨r, hr, fun S hS => hlists.length_eq ▸ hlargest.most S hS.toIsMatching⟩

theorem keepsMatches_of_lt (cost : CostMatrix (Exact bound bids) n m) {t : Exact bound bids}
    (hlt : (.number limit : Exact bound bids) < t)
    (hsmall : ∀ (a b : Fin (n + m)) (q : ℚ), ((cost.gate t).extendAt t)[a][b] = .number q →
      2 * (n + m : ℕ) * |q| < bound) :
    KeepsMatches cost limit (fun r => (Dense.assign cost t).outcome = .ok r) ∧
      KeepsMatches cost limit (Dense.Assigns cost t) ∧
      KeepsMatches cost limit (fun r => (Rectangular.assign cost t).outcome = .ok r) := by
  cases t with
  | nan => exact absurd hlt Bool.false_ne_true
  | infinite negative =>
    cases negative with
    | true => exact absurd hlt Bool.false_ne_true
    | false =>
      obtain ⟨hassign, hassigns⟩ := Dense.assign_isLargest cost hsmall
      exact ⟨keepsMatches_of_isLargest hassign, keepsMatches_of_isLargest hassigns,
        keepsMatches_of_isLargest (Rectangular.assign_isLargest cost)⟩
  | number limit' =>
    have hlt' := Exact.number_lt.mp hlt
    obtain ⟨hassign, hassigns⟩ := Dense.assign_isLeast cost limit' hsmall
    exact ⟨keepsMatches_of_isLeast hlt' hassign, keepsMatches_of_isLeast hlt' hassigns,
      keepsMatches_of_isLeast hlt' (Rectangular.assign_isLeast cost limit')⟩

/-- Raising the threshold loses no matches, whichever solver is used at either threshold, and for
the dense one also if its row reduction goes on until it ends by itself. -/
theorem length_matched_le_of_lt (cost : CostMatrix (Exact bound bids) n m) {t : Exact bound bids}
    (hlt : (.number limit : Exact bound bids) < t)
    (hsmall : ∀ (a b : Fin (n + m)) (q : ℚ),
      ((cost.gate (.number limit)).extendAt (.number limit : Exact bound bids))[a][b] = .number q →
        2 * (n + m : ℕ) * |q| < bound)
    (hsmall' : ∀ (a b : Fin (n + m)) (q : ℚ), ((cost.gate t).extendAt t)[a][b] = .number q →
      2 * (n + m : ℕ) * |q| < bound) :
    ∃ dense uncut rectangular dense' uncut' rectangular',
      (Dense.assign cost (.number limit : Exact bound bids)).outcome = .ok dense ∧
      Dense.Assigns cost (.number limit : Exact bound bids) uncut ∧
      (Rectangular.assign cost (.number limit : Exact bound bids)).outcome = .ok rectangular ∧
      (Dense.assign cost t).outcome = .ok dense' ∧
      Dense.Assigns cost t uncut' ∧
      (Rectangular.assign cost t).outcome = .ok rectangular' ∧
      ∀ r ∈ [dense, uncut, rectangular], ∀ r' ∈ [dense', uncut', rectangular'],
        r.matched.length ≤ r'.matched.length := by
  obtain ⟨⟨dense, S₁, hdense, hlists₁, hleast₁, -⟩, uncut, S₂, huncut, hlists₂, hleast₂, -⟩ :=
    Dense.assign_isLeast cost limit hsmall
  obtain ⟨rectangular, S₃, hrectangular, hlists₃, hleast₃, -⟩ :=
    Rectangular.assign_isLeast cost limit
  obtain ⟨⟨dense', hdense', hkeep₁⟩, ⟨uncut', huncut', hkeep₂⟩, rectangular', hrectangular',
    hkeep₃⟩ := keepsMatches_of_lt cost hlt hsmall'
  refine ⟨dense, uncut, rectangular, dense', uncut', rectangular', hdense, huncut, hrectangular,
    hdense', huncut', hrectangular', ?_⟩
  simp only [List.mem_cons, List.not_mem_nil, or_false, forall_eq_or_imp, forall_eq,
    hlists₁.length_eq, hlists₂.length_eq, hlists₃.length_eq]
  exact ⟨⟨hkeep₁ S₁ hleast₁, hkeep₂ S₁ hleast₁, hkeep₃ S₁ hleast₁⟩,
    ⟨hkeep₁ S₂ hleast₂, hkeep₂ S₂ hleast₂, hkeep₃ S₂ hleast₂⟩,
    hkeep₁ S₃ hleast₃, hkeep₂ S₃ hleast₃, hkeep₃ S₃ hleast₃⟩

/-- Between a threshold of four and none both solvers keep their matches. -/
theorem length_matched_le_scattered :
    ∃ dense uncut rectangular dense' uncut' rectangular',
      (Dense.assign (scattered 1000 10) (.number 4 : Exact 1000 10)).outcome =
        .ok dense ∧
      Dense.Assigns (scattered 1000 10) (.number 4 : Exact 1000 10) uncut ∧
      (Rectangular.assign (scattered 1000 10) (.number 4 : Exact 1000 10)).outcome =
        .ok rectangular ∧
      (Dense.assign (scattered 1000 10) (.infinite false : Exact 1000 10)).outcome =
        .ok dense' ∧
      Dense.Assigns (scattered 1000 10) (.infinite false : Exact 1000 10) uncut' ∧
      (Rectangular.assign (scattered 1000 10) (.infinite false : Exact 1000 10)).outcome =
        .ok rectangular' ∧
      ∀ r ∈ [dense, uncut, rectangular], ∀ r' ∈ [dense', uncut', rectangular'],
        r.matched.length ≤ r'.matched.length := by
  exact length_matched_le_of_lt (scattered 1000 10) rfl
    (small_of_abs_value abs_extendAt_scattered_number)
    (small_of_abs_value abs_extendAt_scattered_infinite)

end LinearAssignment
