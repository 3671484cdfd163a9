import LinearAssignment.Proofs.Rectangular.Distance
import LinearAssignment.Rectangular.Completion

/-! The potentials of the rectangular solver support its matching after every search, and a
search that finds no way proves that there is no assignment. -/
namespace LinearAssignment.Rectangular.Progress

variable {bound : ℚ} {bids n m : ℕ} {cost : CostMatrix (Exact bound bids) n m}
  {c : Fin n → Fin m → WithTop ℚ} {u : Fin n → ℚ} {v : Fin m → ℚ}
  {p : Progress (Exact bound bids) n m} {i : Fin n}

/-- The rows matched so far are matched optimally: potentials support the matching. -/
structure IsSound (cost : CostMatrix (Exact bound bids) n m) (c : Fin n → Fin m → WithTop ℚ)
    (u : Fin n → ℚ) (v : Fin m → ℚ) (s : DualMatching (Exact bound bids) n m) : Prop where
  reads : Reads cost s.rowPotential s.columnPotential c u v
  consistent : s.toMatching.Consistent
  supported : s.toMatching.IsSupported c u v
  freeAtZero : s.toMatching.FreeAtZero v

theorem isSound_initial (hc : ∀ (i : Fin n) (j : Fin m), cost[i][j] = .ofTop (c i j)) :
    IsSound cost c (fun _ => 0) (fun _ => 0)
      (initial : Progress (Exact bound bids) n m).toDualMatching where
  reads := by
    refine ⟨hc, fun i => ?_, fun j => ?_⟩ <;>
      simp [initial, DualMatching.trivial, Exact.zero_eq]
  consistent := Matching.consistent_empty
  supported := Matching.isSupported_empty _ _
  freeAtZero := ⟨fun _ => le_rfl, fun _ _ => rfl⟩

theorem search_ends (h : IsSound cost c u v p.toDualMatching) (hi : ¬ p.IsMatched i)
    (hnm : n ≤ m) : ∃ r, p.search cost i = .ok r ∧
      PathSearch.Ends p.toMatching c u v i r := by
  obtain ⟨j, hj⟩ := h.consistent.exists_free hi hnm
  exact PathSearch.run_ends h.reads h.consistent hi h.supported.below hj
    (PathSearch.isScan_start _ _ _) (PathSearch.isMeasured_start _) (.inl ⟨rfl, rfl, rfl⟩)

/-- The rows on the trail of a blocked search have no room for an assignment. They are the row that
was searched from and rows that are matched. -/
theorem exists_top_of_blocked (hs : p.toMatching.Consistent) (hi : ¬ p.IsMatched i)
    {s : PathSearch (Exact bound bids) n m}
    (h : PathSearch.Ends p.toMatching c u v i (s, none)) {f : Fin n → Fin m}
    (hf : Set.InjOn f {r | r = i ∨ p.IsMatched r}) :
    ∃ r, (r = i ∨ p.IsMatched r) ∧ c r (f r) = ⊤ := by
  cases h with
  | @blocked trail _ _ scan measured far =>
    have hmatched : ∀ r, p.toMatching.OnTrail i trail r → r = i ∨ p.IsMatched r := fun r hr =>
      hr.imp_right fun ⟨k, _, hk⟩ => ⟨k, hk⟩
    obtain ⟨r, hr, hout⟩ := scan.isTrail.exists_escape hs hi (hf.mono hmatched)
    exact ⟨r, hmatched r hr, measured.eq_top_of_far far hr hout⟩

theorem not_injective_of_blocked (hs : p.toMatching.Consistent) (hi : ¬ p.IsMatched i)
    {s : PathSearch (Exact bound bids) n m}
    (h : PathSearch.Ends p.toMatching c u v i (s, none)) {f : Fin n → Fin m}
    (hf : Function.Injective f) : ∃ r, c r (f r) = ⊤ := by
  obtain ⟨r, -, hr⟩ := exists_top_of_blocked hs hi h hf.injOn
  exact ⟨r, hr⟩

section potentials

variable {s : PathSearch (Exact bound bids) n m} {trail : List (Fin m)} {sink : Fin m}
  {d : Fin m → ℚ} {length : ℚ}

theorem raisedRow_eq (h : IsSound cost c u v p.toDualMatching)
    (hend : PathSearch.EndsAt p.toMatching i trail sink s)
    (hd : ∀ l ∈ trail, s.distance[l] = .ofTop (d l)) (r : Fin n) :
    p.raisedRow s i (.ofTop length) r =
      .ofTop (p.toMatching.raisedRow u i trail d length r) := by
  have hrow := hend.row r
  unfold Progress.raisedRow Matching.raisedRow
  simp only [h.reads.row]
  split
  next => exact Exact.ofTop_coe_add _ _
  next hr =>
    by_cases hscan : s.scannedRows[r] = true
    · obtain ⟨k, hk, hkr⟩ := (hrow.mp hscan).resolve_left hr
      rw [if_pos hscan, h.consistent hkr]
      simp only [if_pos (And.intro hk hkr), hd k hk, Exact.ofTop_coe_sub, Exact.ofTop_coe_add]
    · have hoff : ∀ k, ¬ (k ∈ trail ∧ p.rowOf[k] = some r) := fun k hk =>
        hscan (hrow.mpr (.inr ⟨k, hk.1, hk.2⟩))
      rw [if_neg hscan]
      split
      next k _ => rw [if_neg (hoff k)]
      next => rfl

theorem loweredColumn_eq (h : IsSound cost c u v p.toDualMatching)
    (hend : PathSearch.EndsAt p.toMatching i trail sink s)
    (hd : ∀ l ∈ trail, s.distance[l] = .ofTop (d l)) (hsink : s.distance[sink] = .ofTop length)
    (l : Fin m) :
    p.loweredColumn s (.ofTop length) l = .ofTop (Matching.loweredColumn v trail d length l) := by
  have hcolumn := hend.column l
  unfold Progress.loweredColumn Matching.loweredColumn
  simp only [h.reads.column]
  by_cases hl : l ∈ trail
  · rw [if_pos (hcolumn.mpr (.inr hl)), if_pos hl, hd l hl]
    simp only [Exact.ofTop_coe_sub]
  · rw [if_neg hl]
    split
    next hscan =>
      obtain rfl := (hcolumn.mp hscan).resolve_right hl
      rw [hsink]
      simp only [Exact.ofTop_coe_sub, sub_self, sub_zero]
    next => rfl

end potentials

/-- After a search that has arrived, the potentials raised and lowered by its labels support the
matching in which its row is matched as well. -/
theorem exists_advance (h : IsSound cost c u v p.toDualMatching) (hi : ¬ p.IsMatched i)
    {s : PathSearch (Exact bound bids) n m} {sink : Sink (Exact bound bids) m}
    (hends : PathSearch.Ends p.toMatching c u v i (s, some sink)) :
    ∃ trail d length, sink.length = .number length ∧
      p.toMatching.Trail (fun j => s.reachedBy[j]) i trail ∧
      IsSound cost c (p.toMatching.raisedRow u i trail d length)
        (Matching.loweredColumn v trail d length) (p.advance s i sink).toDualMatching ∧
      ∀ r, (p.advance s i sink).IsMatched r ↔ r = i ∨ p.IsMatched r := by
  cases hends with
  | @arrived trail d t k sink scan measured position fresh free least finite =>
    have hbeq : (t.distance[sink] == Cost.infinity) = false := by
      rw [measured.distance, Exact.infinity_eq, Exact.ofTop_beq, decide_eq_false_iff_not]
      exact finite
    have hend := scan.endsAt position hbeq free
    have hflip := Matching.flipped_augment h.consistent hi hend.isTrail free hend.reached
    have hlength : ((d sink).untop₀ : WithTop ℚ) = d sink := WithTop.coe_untop₀_of_ne_top finite
    have hlabel := measured.isLabelling least fresh hlength.symm
    have hdistance : ∀ l ∈ trail, (t.scan k).distance[l] =
        Exact.ofTop ((d l).untop₀ : WithTop ℚ) := fun l hl =>
      (measured.distance l).trans
        (congrArg _ (WithTop.coe_untop₀_of_ne_top (measured.finite l hl)).symm)
    refine ⟨trail, fun l => (d l).untop₀, (d sink).untop₀, ?_, hend.isTrail,
      ⟨⟨h.reads.cost, fun r => ?_, fun l => ?_⟩, hflip.consistent,
        h.supported.flipped h.consistent hi hend.isTrail free hlabel hflip,
        h.freeAtZero.flipped hend.isTrail hlabel hflip⟩,
      Matching.isMatched_of_flipped hflip free⟩
    · exact congrArg Exact.ofTop hlength.symm
    · rw [← raisedRow_eq h hend hdistance, hlength]
      simp [advance]
    · rw [← loweredColumn_eq h hend hdistance ((measured.distance sink).trans
        (congrArg _ hlength.symm)), hlength]
      simp [advance]

theorem isSound_advance (h : IsSound cost c u v p.toDualMatching) (hi : ¬ p.IsMatched i)
    {s : PathSearch (Exact bound bids) n m} {sink : Sink (Exact bound bids) m}
    (hends : PathSearch.Ends p.toMatching c u v i (s, some sink)) :
    (∃ u' v', IsSound cost c u' v' (p.advance s i sink).toDualMatching) ∧
      ∀ r, (p.advance s i sink).IsMatched r ↔ r = i ∨ p.IsMatched r := by
  obtain ⟨trail, d, length, -, -, hsound, hmatched⟩ := exists_advance h hi hends
  exact ⟨⟨_, _, hsound⟩, hmatched⟩

theorem matchRows_outcome (rows : List (Fin n)) (p : Progress (Exact bound bids) n m)
    (u : Fin n → ℚ) (v : Fin m → ℚ) (h : IsSound cost c u v p.toDualMatching)
    (hrows : ∀ r, p.IsMatched r ↔ r ∉ rows) (hnodup : rows.Nodup) (hnm : n ≤ m) :
    (∃ s u v, (matchRows cost rows p).outcome = .ok (some s) ∧ IsSound cost c u v s ∧
        ∀ r, s.IsMatched r) ∨
      (matchRows cost rows p).outcome = .ok none ∧
        ∀ f : Fin n → Fin m, Function.Injective f → ∃ r, c r (f r) = ⊤ := by
  -- Induction on the rows that are still to be matched. Either all of them are in the end, or there
  -- is no assignment at all.
  induction rows generalizing p u v with
  | nil => exact .inl ⟨_, u, v, rfl, h, fun r => (hrows r).mpr List.not_mem_nil⟩
  | cons i rows ih =>
    obtain ⟨hfresh, hnodup⟩ := List.nodup_cons.mp hnodup
    have hi : ¬ p.IsMatched i := fun hm => (hrows i).mp hm List.mem_cons_self
    obtain ⟨⟨s, found⟩, hsearch, hends⟩ := search_ends h hi hnm
    unfold matchRows
    rw [Run.outcome_ofExcept_bind hsearch]
    cases found with
    | none =>
      refine .inr ⟨rfl, fun f hf => ?_⟩
      exact not_injective_of_blocked h.consistent hi hends hf
    | some sink =>
      obtain ⟨⟨u', v', h'⟩, hmatched⟩ := isSound_advance h hi hends
      refine ih (p.advance s i sink) u' v' h' (fun r => ?_) hnodup
      rw [hmatched, hrows, List.mem_cons, not_or]
      by_cases hr : r = i
      · simp [hr, hfresh]
      · simp [hr]

end LinearAssignment.Rectangular.Progress
