import LinearAssignment.Proofs.Dense.BidCount
import LinearAssignment.Proofs.Dense.Solver
import Mathlib.Logic.Relation

/-! Phases of row reduction and augmentations in any order. Each of them keeps complementary
slackness and raises no price, so none of them fails and none goes on for ever. -/
namespace LinearAssignment.PricedMatching

variable {bound : ℚ} {bids n m : ℕ} {cost : CostMatrix (Exact bound bids) n m}
  {s t : PricedMatching (Exact bound bids) n m} {c : Fin n → Fin m → WithTop ℚ} {u : Fin n → ℚ}
  {v : Fin m → ℚ} {f : Fin n → Fin m}

/-- A step of the solver: a phase of row reduction over the rows without column, of as many bids as
are allowed for, or the augmentation of one of them. -/
inductive Step (cost : CostMatrix (Exact bound bids) n m)
    (s t : PricedMatching (Exact bound bids) n m) : Prop
  | reduce {free waiting : List (Fin n)} (steps : ℕ) (misses : s.Misses free)
      (outcome : bidAll cost steps s free [] = .ok (t, waiting))
  | augment {i : Fin n} (unmatched : ¬ s.IsMatched i) (outcome : s.augmentRow cost i = .ok t)

/-- Complementary slackness at prices `v`: no price is positive and those of free columns are zero,
and each row that holds a column finds no other cheaper. -/
structure IsSlack (cost : CostMatrix (Exact bound bids) n m)
    (s : PricedMatching (Exact bound bids) n m) (v : Fin m → ℚ) : Prop where
  price : ∀ j : Fin m, s.price[j] = .number (v j)
  nonpos : ∀ j, v j ≤ 0
  free : ∀ j : Fin m, s.rowOf[j] = none → v j = 0
  columnOf : ∀ (i : Fin n) (j : Fin m), s.rowOf[j] = some i → s.columnOf[i] = some j
  least : ∀ (i : Fin n) (j : Fin m), s.rowOf[j] = some i → ∃ q, cost[i][j] = .number q ∧
    ∀ (k : Fin m) (p : ℚ), cost[i][k] = .number p → q - v j ≤ p - v k

theorem IsSound.isSlack (h : s.IsSound cost c u v) : s.IsSlack cost v where
  price := h.price
  nonpos := h.freeAtZero.nonpos
  free := h.freeAtZero.free
  columnOf _ _ hj := h.consistent hj
  least i j hj := by
    refine ⟨u i + v j, ?_, fun k p hp => ?_⟩
    · rw [h.cost, h.supported.tight hj, Exact.ofTop_coe]
    · have hbelow := h.supported.below ⟨j, hj⟩ k
      rw [h.cost, Exact.ofTop_eq_number] at hp
      rw [hp, WithTop.coe_le_coe] at hbelow
      linarith

/-- A step keeps the prices sound and raises none of them. -/
theorem Step.exists_isSound (hstep : Step cost s t) (hf : IsFeasible bound c f)
    (h : s.IsSound cost c u v) : ∃ u' v', t.IsSound cost c u' v' ∧ ∀ j, v' j ≤ v j := by
  cases hstep with
  | reduce steps misses outcome =>
    obtain ⟨t', free', u', v', ht', hsound, -, hle⟩ := bidAll_sound hf h misses steps
    obtain ⟨rfl, -⟩ := Prod.mk.inj (Except.ok.inj (ht'.symm.trans outcome))
    exact ⟨u', v', hsound, hle⟩
  | augment unmatched outcome =>
    obtain ⟨t', u', v', ht', hsound, -, hle⟩ :=
      augmentRow_outcome hf.injective hf.finite h unmatched
    obtain rfl := Except.ok.inj (ht'.symm.trans outcome)
    exact ⟨u', v', hsound, hle⟩

theorem exists_isSound_of_steps (h : Relation.ReflTransGen (Step cost) initial s)
    (hf : IsFeasible bound c f) (hc : ∀ (i : Fin n) (j : Fin m), cost[i][j] = .ofTop (c i j)) :
    ∃ u v, s.IsSound cost c u v := by
  induction h with
  | refl => exact ⟨_, _, isSound_initial hc⟩
  | tail _ last ih =>
    obtain ⟨u, v, hsound⟩ := ih
    obtain ⟨u', v', hsound', -⟩ := last.exists_isSound hf hsound
    exact ⟨u', v', hsound'⟩

/-- Whatever steps lead to a state, complementary slackness holds there and after every next step,
which raises no price. From there each phase that is not cut short comes to an end, and each row
without column can be augmented. -/
theorem slack_of_steps (hnm : n ≤ m) (hvalid : cost.hasInvalidEntry = false)
    (hsome : ∃ P, cost.IsAssignment P)
    (hsmall : ∀ (i : Fin n) (j : Fin m) (q : ℚ), cost[i][j] = .number q → 2 * n * |q| < bound)
    (h : Relation.ReflTransGen (Step cost) initial s) :
    ∃ v, s.IsSlack cost v ∧
      (∀ t, Step cost s t → ∃ v', t.IsSlack cost v' ∧ ∀ j, v' j ≤ v j) ∧
      (∀ free, s.Misses free → ∃ N t waiting, Bids cost s free [] t waiting ∧
        ∀ steps ≥ N, bidAll cost steps s free [] = .ok (t, waiting)) ∧
      ∀ i, ¬ s.IsMatched i → ∃ t, s.augmentRow cost i = .ok t := by
  obtain ⟨f, hf⟩ := Dense.exists_isFeasible hnm hvalid hsome hsmall
  obtain ⟨u, v, hs⟩ := exists_isSound_of_steps h hf (CostMatrix.ofTop_toTop_of_valid hvalid)
  refine ⟨v, hs.isSlack, fun t hstep => ?_, fun free hfree => hs.exists_bids hf hfree,
    fun i hi => ?_⟩
  · obtain ⟨u', v', ht, hle⟩ := hstep.exists_isSound hf hs
    exact ⟨v', ht.isSlack, hle⟩
  · obtain ⟨t, -, -, ht, -⟩ := augmentRow_outcome hf.injective hf.finite hs hi
    exact ⟨t, ht⟩

/-- The first row is augmented, then the second one bids. -/
theorem slack_of_steps_contested :
    let cost := CostMatrix.contested 100 10
    ∃ s v t v', initial.augmentRow cost 0 = .ok s ∧ s.IsSlack cost v ∧ Step cost s t ∧
      t.IsSlack cost v' ∧ ∀ j, v' j ≤ v j := by
  intro cost
  obtain ⟨s, hs, -, hmatched⟩ := @exists_augmentRow _ _ _ _ cost initial 0
    Matching.consistent_empty (Matching.not_isMatched_empty 0) (by decide)
  have hrow : ∀ r, s.IsMatched r ↔ r = 0 := fun r =>
    (hmatched r).trans (or_iff_left (Matching.not_isMatched_empty r))
  have hone : s.Misses [1] := by
    refine ⟨List.nodup_singleton 1, fun r => ?_⟩
    rw [hrow]
    revert r
    decide
  obtain ⟨v, hv, hnext, hphase, -⟩ := slack_of_steps (by decide)
    CostMatrix.hasInvalidEntry_contested ⟨_, CostMatrix.isAssignment_contested⟩
    CostMatrix.abs_le_of_contested (.single (.augment (Matching.not_isMatched_empty 0) hs))
  obtain ⟨N, t, waiting, -, hN⟩ := hphase [1] hone
  have hstep : Step cost s t := .reduce N hone (hN N le_rfl)
  obtain ⟨v', hv', hle⟩ := hnext t hstep
  exact ⟨s, v, t, v', hs, hv, hstep, hv', hle⟩

end LinearAssignment.PricedMatching
