import LinearAssignment.Proofs.Dense.Augmentation
import LinearAssignment.Proofs.Dense.Termination

/-! What the dense solver returns in exact arithmetic for a matrix of any shape that has an
assignment: an optimal one, its total cost and potentials that certify it. This holds however many
bids a phase of row reduction is allowed, and also if it goes on until no row is left to bid; from
some number of bids on the two are the same. -/
namespace LinearAssignment

namespace Dense

variable {bound : ℚ} {bids n m : ℕ} {cost : CostMatrix (Exact bound bids) n m}
  {p : PricedMatching (Exact bound bids) n m} {c : Fin n → Fin m → WithTop ℚ} {u : Fin n → ℚ}
  {v : Fin m → ℚ} {f : Fin n → Fin m}

theorem exists_augmentRow_isSound (hf : PricedMatching.IsFeasible bound c f)
    (hp : ∃ u v, p.IsSound cost c u v) {i : Fin n} (hi : ¬ p.IsMatched i) :
    ∃ t, p.augmentRow cost i = .ok t ∧ (∃ u v, t.IsSound cost c u v) ∧
      ∀ r, t.IsMatched r ↔ r = i ∨ p.IsMatched r := by
  obtain ⟨u, v, hp⟩ := hp
  obtain ⟨t, u', v', ht, hsound, hmatched, -⟩ :=
    PricedMatching.augmentRow_outcome hf.injective hf.finite hp hi
  exact ⟨t, ht, ⟨u', v', hsound⟩, hmatched⟩

/-- All rows are matched at sound prices in the end. -/
theorem complete_outcome (hf : PricedMatching.IsFeasible bound c f)
    (hc : ∀ (i : Fin n) (j : Fin m), cost[i][j] = .ofTop (c i j)) :
    ∃ t u v, (complete cost).outcome = .ok t ∧ t.IsSound cost c u v ∧
      t.toMatching.IsComplete := by
  obtain ⟨t, ht, ⟨u, v, hsound⟩, hmatched⟩ := complete_keeps
    (fun t => ∃ u v, t.IsSound cost c u v) ⟨_, _, PricedMatching.isSound_initial hc⟩
    (fun s free ⟨_, _, hs⟩ hfree => by
      obtain ⟨t, free', u, v, ht, hsound, hmisses, -⟩ :=
        PricedMatching.reduceRows_outcome hf hs hfree
      exact ⟨t, free', ht, ⟨u, v, hsound⟩, hmisses⟩)
    fun _ _ hp hi => exists_augmentRow_isSound hf hp hi
  exact ⟨t, u, v, ht, hsound, hsound.consistent, hmatched⟩

/-- So they are if both phases go on until they end by themselves. -/
theorem exists_ends_sound (hnm : n ≤ m) (hf : PricedMatching.IsFeasible bound c f)
    (hc : ∀ (i : Fin n) (j : Fin m), cost[i][j] = .ofTop (c i j)) :
    ∃ t u v, Ends cost (.ok ⟨t.toMatching, Vector.ofFn (rowPotential cost t), t.price⟩) ∧
      t.IsSound cost c u v ∧ t.toMatching.IsComplete := by
  have hinitial := PricedMatching.isSound_initial hc
  obtain ⟨-, s, free, hbids, -⟩ := hinitial.exists_bids hf Matching.misses_empty
  obtain ⟨u, v, hs, hfree⟩ := hinitial.of_bids hf Matching.misses_empty hbids
  obtain ⟨-, p, free', hbids', -⟩ := hs.exists_bids hf hfree
  obtain ⟨u, v, hp, hfree'⟩ := hs.of_bids hf hfree hbids'
  obtain ⟨q, hq, hends⟩ := exists_ends_of_bids hnm hbids hbids'
  obtain ⟨t, ht, ⟨u, v, hsound⟩, hmatched⟩ := augmentAll_outcome
    (fun t => ∃ u v, t.IsSound cost c u v) (fun _ _ hp hi => exists_augmentRow_isSound hf hp hi)
    free'.length 1 free' p ⟨u, v, hp⟩ hfree'
  obtain rfl := Except.ok.inj (hq.symm.trans ht)
  exact ⟨q, u, v, hends, hsound, hsound.consistent, hmatched⟩

/-- From some number of bids on, no phase is cut short. -/
theorem exists_ends_of_le (hnm : n ≤ m) (hf : PricedMatching.IsFeasible bound c f) :
    ∃ N, ∀ {bids : ℕ} {cost : CostMatrix (Exact bound bids) n m}, N ≤ bids →
      (∀ (i : Fin n) (j : Fin m), cost[i][j] = .ofTop (c i j)) →
      ∃ s, (solveWide cost).outcome = .ok s ∧ Ends cost (.ok s) := by
  obtain ⟨N, hN⟩ := PricedMatching.exists_bids_of_le (n := n) (m := m) hf
  refine ⟨N, fun hbids hc => ?_⟩
  obtain ⟨s, free, p, free', hs, hbids, hp, hbids'⟩ := hN hbids hc
  obtain ⟨q, hq, hends⟩ := exists_ends_of_bids hnm hbids hbids'
  exact ⟨_, Run.outcome_bind ((outcome_complete hs hp).trans hq) _, hends⟩

theorem rowPotential_eq (h : p.IsSound cost c u v) {i : Fin n} (hi : p.IsMatched i) :
    rowPotential cost p i = .ofTop (u i : WithTop ℚ) := by
  obtain ⟨j, hj⟩ := hi
  rw [rowPotential, h.consistent hj]
  simp only [h.cost, h.price, h.supported.tight hj, Exact.ofTop_coe_sub, add_sub_cancel_right]

end Dense

structure DualMatching.IsOptimal {bound : ℚ} {bids n m : ℕ}
    (cost : CostMatrix (Exact bound bids) n m) (s : DualMatching (Exact bound bids) n m)
    (u : Fin n → ℚ) (v : Fin m → ℚ) : Prop where
  isAssignment : cost.IsAssignment s.pairs
  row : ∀ i : Fin n, s.rowPotential[i] = .number (u i)
  column : ∀ j : Fin m, s.columnPotential[j] = .number (v j)
  certified : cost.IsCertified s.pairs u v

theorem DualMatching.IsOptimal.transpose {bound : ℚ} {bids n m : ℕ}
    {cost : CostMatrix (Exact bound bids) n m} {s : DualMatching (Exact bound bids) m n}
    {u : Fin m → ℚ} {v : Fin n → ℚ} (h : s.IsOptimal cost.transpose u v) (hs : s.IsComplete)
    (hmn : m < n) : s.transpose.IsOptimal cost v u where
  isAssignment := hs.pairs_transpose ▸ h.isAssignment.of_transpose
  row := h.column
  column := h.row
  certified := hs.pairs_transpose ▸ h.certified.of_transpose hmn

namespace Dense

variable {bound : ℚ} {bids n m : ℕ} {cost : CostMatrix (Exact bound bids) n m}

/-- A matrix that is not tall and has an assignment, and whose numbers are small. -/
theorem exists_isFeasible (hnm : n ≤ m) (hvalid : cost.hasInvalidEntry = false)
    (hsome : ∃ P, cost.IsAssignment P)
    (hsmall : ∀ (i : Fin n) (j : Fin m) (q : ℚ), cost[i][j] = .number q → 2 * n * |q| < bound) :
    ∃ f, PricedMatching.IsFeasible bound (fun (i : Fin n) (j : Fin m) => cost[i][j].toTop) f := by
  obtain ⟨P, hP⟩ := hsome
  obtain ⟨f, hf, hfinite⟩ := hP.exists_columns hnm
  have hc := CostMatrix.ofTop_toTop_of_valid hvalid
  refine ⟨f, hf, fun r => ?_, fun {r k q} hq => hsmall r k q ?_⟩
  · have hr := hfinite r
    rwa [hc, Exact.isFinite_ofTop] at hr
  · rw [hc, hq]
    rfl

/-- The last state of a run makes an optimal solution if its prices are sound. -/
theorem isOptimal_of_isSound (hnm : n ≤ m)
    (hc : ∀ (i : Fin n) (j : Fin m), cost[i][j] = .ofTop (c i j)) (hsound : p.IsSound cost c u v)
    (hcomplete : p.IsComplete) :
    DualMatching.IsOptimal cost ⟨p.toMatching, Vector.ofFn (rowPotential cost p), p.price⟩ u v where
  isAssignment := hcomplete.isAssignment hnm hc hsound.supported
  row i := by
    rw [← Exact.ofTop_coe, ← rowPotential_eq hsound (hcomplete.isMatched i)]
    exact getElem_ofFn_fin _ i
  column := hsound.price
  certified := hcomplete.isCertified hnm hc hsound.supported hsound.freeAtZero

/-- A matrix that is not tall is solved if it has an assignment and its numbers are small, with a
bound on the bids and without. -/
theorem solveWide_outcome (hnm : n ≤ m) (hvalid : cost.hasInvalidEntry = false)
    (hsome : ∃ P, cost.IsAssignment P)
    (hsmall : ∀ (i : Fin n) (j : Fin m) (q : ℚ), cost[i][j] = .number q → 2 * n * |q| < bound) :
    (∃ s u v, (solveWide cost).outcome = .ok s ∧ s.IsComplete ∧ s.IsOptimal cost u v) ∧
      ∃ s u v, Ends cost (.ok s) ∧ s.IsComplete ∧ s.IsOptimal cost u v := by
  obtain ⟨f, hfeasible⟩ := exists_isFeasible hnm hvalid hsome hsmall
  have hc := CostMatrix.ofTop_toTop_of_valid hvalid
  constructor
  · obtain ⟨p, u, v, hp, hsound, hcomplete⟩ := complete_outcome hfeasible hc
    exact ⟨_, u, v, Run.outcome_bind hp _, hcomplete, isOptimal_of_isSound hnm hc hsound hcomplete⟩
  · obtain ⟨p, u, v, hp, hsound, hcomplete⟩ := exists_ends_sound hnm hfeasible hc
    exact ⟨_, u, v, hp, hcomplete, isOptimal_of_isSound hnm hc hsound hcomplete⟩

def IsSmall (cost : CostMatrix (Exact bound bids) n m) : Prop :=
  ∀ (i : Fin n) (j : Fin m) (q : ℚ), cost[i][j] = .number q → 2 * (min n m : ℕ) * |q| < bound

theorem IsSmall.objective (h : IsSmall cost) (maximize : Bool) :
    IsSmall (cost.objective maximize) := by
  intro i j q hq
  rw [CostMatrix.getElem_objective] at hq
  cases maximize with
  | false => exact h i j q hq
  | true => simpa only [abs_neg] using h i j (-q) (Exact.number_of_neg hq)

theorem solveNormal_outcome {maximize : Bool}
    (hvalid : (cost.objective maximize).hasInvalidEntry = false)
    (hsome : ∃ P, (cost.objective maximize).IsAssignment P)
    (hsmall : IsSmall (cost.objective maximize)) :
    (∃ s u v, (solveNormal (cost.normalize maximize)).outcome = .ok s ∧
        s.IsOptimal (cost.objective maximize) u v) ∧
      ∃ s u v, EndsNormal (cost.normalize maximize) s ∧
        s.IsOptimal (cost.objective maximize) u v := by
  by_cases hnm : n ≤ m
  · simp only [IsSmall, min_eq_left hnm] at hsmall
    rw [CostMatrix.normalize_of_le _ _ hnm, solveNormal]
    obtain ⟨⟨s, u, v, hs, -, hoptimal⟩, s', u', v', hs', -, hoptimal'⟩ :=
      solveWide_outcome hnm hvalid hsome hsmall
    exact ⟨⟨s, u, v, hs, hoptimal⟩, s', u', v', .upright hs', hoptimal'⟩
  · have hmn : m < n := Nat.lt_of_not_le hnm
    simp only [IsSmall, min_eq_right hmn.le] at hsmall
    have hvalid' : (cost.objective maximize).transpose.hasInvalidEntry = false := by
      rw [CostMatrix.hasInvalidEntry_transpose, hvalid]
    rw [CostMatrix.normalize_of_lt _ _ hmn, solveNormal]
    obtain ⟨⟨s, u, v, hs, hcomplete, hoptimal⟩, s', u', v', hs', hcomplete', hoptimal'⟩ :=
      solveWide_outcome hmn.le hvalid'
        (hsome.imp' _ fun P hP => hP.transpose)
        (fun j i q hq => hsmall i j q (by rwa [CostMatrix.getElem_transpose] at hq))
    exact ⟨⟨s.transpose, v, u, Run.outcome_bind hs _, hoptimal.transpose hcomplete hmn⟩,
      s'.transpose, v', u', .transposed hs', hoptimal'.transpose hcomplete' hmn⟩

/-- From some number of bids on, the run on a normal form is one without any bound. -/
theorem exists_endsNormal_of_le {maximize : Bool}
    (hvalid : (cost.objective maximize).hasInvalidEntry = false)
    (hsome : ∃ P, (cost.objective maximize).IsAssignment P)
    (hsmall : IsSmall (cost.objective maximize)) :
    ∃ N, ∀ {bids' : ℕ} {cost' : CostMatrix (Exact bound bids') n m}, N ≤ bids' →
      (∀ (i : Fin n) (j : Fin m),
        (cost'.objective maximize)[i][j] = .ofTop (cost.objective maximize)[i][j].toTop) →
      ∃ s, (solveNormal (cost'.normalize maximize)).outcome = .ok s ∧
        EndsNormal (cost'.normalize maximize) s := by
  by_cases hnm : n ≤ m
  · simp only [IsSmall, min_eq_left hnm] at hsmall
    obtain ⟨f, hf⟩ := exists_isFeasible hnm hvalid hsome hsmall
    obtain ⟨N, hN⟩ := exists_ends_of_le hnm hf
    refine ⟨N, fun hbids hc => ?_⟩
    rw [CostMatrix.normalize_of_le _ _ hnm, solveNormal]
    obtain ⟨s, hs, hends⟩ := hN hbids hc
    exact ⟨s, hs, .upright hends⟩
  · have hmn : m < n := Nat.lt_of_not_le hnm
    simp only [IsSmall, min_eq_right hmn.le] at hsmall
    have hvalid' : (cost.objective maximize).transpose.hasInvalidEntry = false := by
      rw [CostMatrix.hasInvalidEntry_transpose, hvalid]
    obtain ⟨f, hf⟩ := exists_isFeasible hmn.le hvalid' (hsome.imp' _ fun P hP => hP.transpose)
      (fun j i q hq => hsmall i j q (by rwa [CostMatrix.getElem_transpose] at hq))
    obtain ⟨N, hN⟩ := exists_ends_of_le hmn.le hf
    refine ⟨N, fun hbids hc => ?_⟩
    rw [CostMatrix.normalize_of_lt _ _ hmn, solveNormal]
    obtain ⟨s, hs, hends⟩ := @hN _ (CostMatrix.objective _ maximize).transpose hbids
      (fun j i => by rw [CostMatrix.getElem_transpose, hc, CostMatrix.getElem_transpose])
    exact ⟨s.transpose, Run.outcome_bind hs _, .transposed hends⟩

theorem isOptimal_trivial (h : min n m = 0) :
    (DualMatching.trivial : DualMatching (Exact bound bids) n m).IsOptimal cost (fun _ => 0)
      fun _ => 0 := by
  have hpairs : (DualMatching.trivial : DualMatching (Exact bound bids) n m).pairs = ∅ := by
    refine Finset.eq_empty_of_forall_notMem fun p hp => ?_
    have hp' := Matching.mem_pairs.mp hp
    simp [DualMatching.trivial, Matching.empty] at hp'
  refine ⟨?_, getElem_replicate_fin _, getElem_replicate_fin _, ?_⟩
  · rw [hpairs]
    exact CostMatrix.isAssignment_empty h
  · rw [hpairs]
    exact CostMatrix.isCertified_empty h

section outcome

variable {α : Type} [Cost α] {cost : CostMatrix α n m} {maximize : Bool}

theorem solve_outcome_of_trivial (h : min n m = 0) :
    let s : DualMatching α n m := .trivial
    (solve cost maximize).outcome = .ok ⟨s, cost.total s.columnOf⟩ := by
  unfold solve
  rw [if_pos h]
  rfl

theorem solve_outcome_of_normal (h : min n m ≠ 0) {s : DualMatching α n m}
    (hs : (solveNormal (cost.normalize maximize)).outcome = .ok s) :
    (solve cost maximize).outcome = .ok ⟨s, cost.total s.columnOf⟩ := by
  unfold solve
  rw [if_neg h, Run.outcome_bind hs]
  rfl

end outcome

/-- A matrix is solved if its normal form has an assignment and its numbers are small, with a bound
on the bids and without. -/
theorem solve_outcome {maximize : Bool}
    (hvalid : (cost.objective maximize).hasInvalidEntry = false)
    (hsome : ∃ P, (cost.objective maximize).IsAssignment P) (hsmall : IsSmall cost) :
    (∃ s u v, (solve cost maximize).outcome = .ok s ∧
        s.IsOptimal (cost.objective maximize) u v ∧ s.total = cost.total s.columnOf) ∧
      ∃ s u v, Returns cost maximize s ∧
        s.IsOptimal (cost.objective maximize) u v ∧ s.total = cost.total s.columnOf := by
  by_cases hmin : min n m = 0
  · exact ⟨⟨_, _, _, solve_outcome_of_trivial hmin, isOptimal_trivial hmin, rfl⟩,
      _, _, _, .trivial hmin rfl, isOptimal_trivial hmin, rfl⟩
  · obtain ⟨⟨s, u, v, hs, hoptimal⟩, s', u', v', hs', hoptimal'⟩ :=
      solveNormal_outcome hvalid hsome (hsmall.objective maximize)
    exact ⟨⟨_, u, v, solve_outcome_of_normal hmin hs, hoptimal, rfl⟩,
      _, u', v', .solved hmin hs', hoptimal', rfl⟩

/-- A solution is an assignment at its total cost, and no assignment is better. -/
structure Solution.IsBest (cost : CostMatrix (Exact bound bids) n m) (maximize : Bool)
    (s : Solution (Exact bound bids) n m) : Prop where
  isAssignment : cost.IsAssignment s.pairs
  total : s.total = .number (cost.worth s.pairs)
  best : ∀ Q, cost.IsAssignment Q →
    if maximize then cost.worth Q ≤ cost.worth s.pairs else cost.worth s.pairs ≤ cost.worth Q

theorem Solution.isBest_of_isOptimal {maximize : Bool} {s : Solution (Exact bound bids) n m}
    {u : Fin n → ℚ} {v : Fin m → ℚ} (h : s.IsOptimal (cost.objective maximize) u v)
    (htotal : s.total = cost.total s.columnOf) : s.IsBest cost maximize where
  isAssignment := CostMatrix.isAssignment_objective.mp h.isAssignment
  total :=
    htotal.trans (Matching.total_eq (CostMatrix.isAssignment_objective.mp h.isAssignment).finite)
  best _ hQ := h.certified.worth_le_objective h.isAssignment hQ

theorem getElem_objective_allow {maximize : Bool} (bids' : ℕ)
    (hvalid : (cost.objective maximize).hasInvalidEntry = false) (i : Fin n) (j : Fin m) :
    ((cost.mapEntries (Exact.allow bids')).objective maximize)[i][j] =
      .ofTop (cost.objective maximize)[i][j].toTop := by
  have hc := CostMatrix.ofTop_toTop_of_valid hvalid i j
  rw [CostMatrix.getElem_objective, CostMatrix.getElem_mapEntries, ← Exact.allow_ofTop bids', ← hc,
    CostMatrix.getElem_objective]
  cases maximize with
  | false => rfl
  | true => exact Exact.allow_neg bids' _

/-- A matrix that has an assignment is solved by the best one, at its total cost: one solution is
what phases of row reduction that go on until no row is left to bid come to. If the number of bids
is bounded, the solution is a best one as well, and from some bound on it is that one. -/
theorem solve_optimal (cost : CostMatrix (Exact bound bids) n m) (maximize : Bool)
    (hvalid : (cost.objective maximize).hasInvalidEntry = false)
    (hsome : ∃ P, (cost.objective maximize).IsAssignment P)
    (hsmall : ∀ (i : Fin n) (j : Fin m) (q : ℚ), cost[i][j] = .number q →
      2 * (min n m : ℕ) * |q| < bound) :
    (∃! s, Returns cost maximize s) ∧
      (∀ s, Returns cost maximize s → s.IsBest cost maximize) ∧
      (∃ s, (solve cost maximize).outcome = .ok s ∧ s.IsBest cost maximize) ∧
      ∃ N, ∀ bids' ≥ N, ∃ s,
        (solve (cost.mapEntries (Exact.allow bids')) maximize).outcome = .ok s ∧
        Returns (cost.mapEntries (Exact.allow bids')) maximize s := by
  obtain ⟨⟨s, u, v, hs, hoptimal, htotal⟩, s', u', v', hs', hoptimal', htotal'⟩ :=
    solve_outcome hvalid hsome hsmall
  have hbest := Solution.isBest_of_isOptimal hoptimal' htotal'
  refine ⟨⟨s', hs', fun _ h => h.unique hs'⟩, fun _ h => h.unique hs' ▸ hbest,
    ⟨s, hs, Solution.isBest_of_isOptimal hoptimal htotal⟩, ?_⟩
  by_cases hmin : min n m = 0
  · exact ⟨0, fun _ _ => ⟨_, solve_outcome_of_trivial hmin, .trivial hmin rfl⟩⟩
  · obtain ⟨N, hN⟩ :=
      exists_endsNormal_of_le hvalid hsome (IsSmall.objective hsmall maximize)
    refine ⟨N, fun bids' hbids => ?_⟩
    obtain ⟨s, hs, hends⟩ := hN hbids (getElem_objective_allow bids' hvalid)
    exact ⟨_, solve_outcome_of_normal hmin hs, .solved hmin hends⟩

/-- The solution of a matrix with a forbidden pairing. -/
theorem solve_contested_optimal :
    ∃ s, Returns (.contested 100 10) false s ∧
      (CostMatrix.contested 100 10).IsAssignment s.pairs ∧
      s.total = .number ((CostMatrix.contested 100 10).worth s.pairs) ∧
      (CostMatrix.contested 100 10).worth s.pairs ≤ 3 := by
  obtain ⟨⟨s, hs, -⟩, hall, -, -⟩ :=
    solve_optimal (.contested 100 10) false CostMatrix.hasInvalidEntry_contested
      ⟨_, CostMatrix.isAssignment_contested⟩ CostMatrix.abs_le_of_contested
  have hbest := hall s hs
  refine ⟨s, hs, hbest.isAssignment, hbest.total, ?_⟩
  have h := hbest.best _ CostMatrix.isAssignment_contested
  rw [if_neg Bool.false_ne_true] at h
  exact h.trans_eq CostMatrix.worth_contested

end Dense

end LinearAssignment
