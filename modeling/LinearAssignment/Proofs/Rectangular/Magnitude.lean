import LinearAssignment.Proofs.Magnitude
import LinearAssignment.Proofs.Rectangular.Stages

/-! No result of the rectangular solver is large against the entries of the matrix. A row that
searches has no column and no potential yet, so some column is free and costs nothing. -/
namespace LinearAssignment

variable {bound : ℚ} {bids n m : ℕ} {cost : CostMatrix (Exact bound bids) n m}
  {q : Fin n → Fin m → ℚ} {C : ℚ} {u : Fin n → ℚ} {v : Fin m → ℚ} {i root : Fin n} {j j₀ : Fin m}

namespace PathSearch

variable {p : Rectangular.Progress (Exact bound bids) n m} {s : PathSearch (Exact bound bids) n m}
  {trail : List (Fin m)} {pending : Option (Fin n)} {d : Fin m → WithTop ℚ} {x : ℚ} {sink : Fin m}

/-- The ways from the root to a free column are as long as its entry there. -/
theorem IsMeasured.le_free
    (h : IsMeasured p.toMatching (fun i j => (q i j : WithTop ℚ)) u v root pending trail d s)
    (hcost : cost.IsBounded q C) (hpending : pending ≠ some root) (hu : u root = 0)
    (hv₀ : v j₀ = 0) : d j₀ ≤ (C : WithTop ℚ) := by
  refine (h.upper (.inl ⟨rfl, rfl⟩) hpending j₀).trans ?_
  rw [hu, hv₀, ← WithTop.coe_add, WithTop.coe_le_coe]
  linarith [hcost.high root j₀]

/-- The row that is visited is the root, or it is no farther than a free column. -/
theorem IsCurrent.within (hi : IsCurrent p.toMatching root trail d i x)
    (h : IsMeasured p.toMatching (fun i j => (q i j : WithTop ℚ)) u v root (some i) trail d s)
    (hcost : cost.IsBounded q C) (hroot : ¬ p.IsMatched root) (hu : u root = 0)
    (hfresh : j₀ ∉ trail) (hv₀ : v j₀ = 0) (hd : ∀ k, ((-C : ℚ) : WithTop ℚ) ≤ d k) :
    -C ≤ x ∧ x ≤ C := by
  have hC := hcost.nonneg
  rcases hi with ⟨-, -, rfl⟩ | ⟨k, t, rfl, hi, hx⟩
  · exact ⟨by linarith, hC⟩
  · have hpending : some i ≠ some root := fun he => hroot ⟨k, Option.some.inj he ▸ hi⟩
    have hfar := (h.beyond k List.mem_cons_self j₀ hfresh).trans
      (h.le_free hcost hpending hu hv₀)
    have hnear := hd k
    rw [hx, WithTop.coe_le_coe] at hfar hnear
    exact ⟨hnear, hfar⟩

theorem IsCurrent.row_within (hi : IsCurrent p.toMatching root trail d i x)
    (hwithin : p.IsWithin C u v) (hC : 0 ≤ C) (hu : u root = 0) : -C ≤ u i ∧ u i ≤ C := by
  rcases hi with ⟨-, rfl, -⟩ | ⟨k, t, rfl, hi, -⟩
  · rw [hu]
    exact ⟨neg_nonpos.mpr hC, hC⟩
  · exact ⟨hwithin.row_low ⟨k, hi⟩, hwithin.row_high ⟨k, hi⟩⟩

/-- No way that a row offers is shorter than the smallest entry can make it. -/
theorem IsCurrent.low_le_shortened (hi : IsCurrent p.toMatching root trail d i x)
    (hp : Rectangular.Progress.IsSound cost (fun i j => (q i j : WithTop ℚ)) u v p.toDualMatching)
    (hcost : cost.IsBounded q C) (hu : u root = 0) (hx : -C ≤ x)
    (hd : ∀ k, ((-C : ℚ) : WithTop ℚ) ≤ d k) (k : Fin m) :
    ((-C : ℚ) : WithTop ℚ) ≤ Matching.shortened (fun i j => (q i j : WithTop ℚ)) u v i x d k := by
  refine le_min (hd k) ?_
  rcases hi with ⟨-, rfl, rfl⟩ | ⟨l, t, rfl, hi, -⟩
  · rw [hu, ← WithTop.coe_add, WithTop.coe_le_coe]
    linarith [hcost.low i k, hp.freeAtZero.nonpos k]
  · exact (WithTop.coe_le_coe.mpr hx).trans (coe_le_way (hp.supported.below ⟨l, hi⟩ k))

theorem visit_within (hr : Reads cost p.rowPotential p.columnPotential
      (fun i j => (q i j : WithTop ℚ)) u v) (hcost : cost.IsBounded q C)
    (hwithin : p.IsWithin C u v) (hu : -C ≤ u i ∧ u i ≤ C) (hx : -C ≤ x ∧ x ≤ C) :
    ∀ z ∈ (Rectangular.Stage.visit p s (.ofTop (x : WithTop ℚ)) i).results cost,
      z.Within (8 * C) := by
  rw [Rectangular.Stage.forall_results_visit]
  intro k _
  have hlow := hcost.low i k
  have hhigh := hcost.high i k
  rw [way_eq hr, hr.cost, hr.row, Exact.ofTop_coe_add, Exact.ofTop_coe_sub, ← WithTop.coe_add]
  exact ⟨Exact.within_number (by linarith) (by linarith),
    Exact.within_number (by linarith) (by linarith),
    Exact.within_number (by linarith [hwithin.nonpos k]) (by linarith [hwithin.low k])⟩

/-- What lies beyond a scanned column is at most twice the largest entry. -/
theorem advance_within {length : ℚ} {t : PathSearch (Exact bound bids) n m}
    (hp : Rectangular.Progress.IsSound cost (fun i j => (q i j : WithTop ℚ)) u v p.toDualMatching)
    (hcost : cost.IsBounded q C) (hwithin : p.IsWithin C u v) (hu : u root = 0)
    (hend : EndsAt p.toMatching root trail sink t)
    (hlength : -C ≤ length ∧ length ≤ C)
    (hscanned : ∀ k, k = sink ∨ k ∈ trail →
      ∃ y : ℚ, t.distance[k] = .ofTop (y : WithTop ℚ) ∧ -C ≤ y ∧ y ≤ length) :
    ∀ z ∈ (Rectangular.Stage.advance p t root (.ofTop (length : WithTop ℚ))).results cost,
      z.Within (8 * C) := by
  have hC := hcost.nonneg
  rw [Rectangular.Stage.forall_results_advance]
  refine ⟨?_, fun i k hne hi hk => ?_, fun k hk => ?_⟩
  · rw [hp.reads.row, hu, Exact.ofTop_coe_add]
    exact Exact.within_number (by linarith) (by linarith)
  · obtain ⟨l, hl, hil⟩ := ((hend.row i).mp hi).resolve_left hne
    obtain rfl : l = k := Option.some.inj ((hp.consistent hil).symm.trans hk)
    obtain ⟨y, hy, hlow, hhigh⟩ := hscanned l (.inr hl)
    rw [hy, hp.reads.row, Exact.ofTop_coe_sub, Exact.ofTop_coe_add]
    have hrow := hwithin.row_low ⟨l, hil⟩
    have hrow' := hwithin.row_high ⟨l, hil⟩
    exact ⟨Exact.within_number (by linarith) (by linarith),
      Exact.within_number (by linarith) (by linarith)⟩
  · obtain ⟨y, hy, hlow, hhigh⟩ := hscanned k ((hend.column k).mp hk)
    rw [hy, hp.reads.column, Exact.ofTop_coe_sub, Exact.ofTop_coe_sub]
    exact ⟨Exact.within_number (by linarith) (by linarith),
      Exact.within_number (by linarith [hwithin.low k]) (by linarith [hwithin.nonpos k])⟩

theorem stages_within
    (hp : Rectangular.Progress.IsSound cost (fun i j => (q i j : WithTop ℚ)) u v p.toDualMatching)
    (hcost : cost.IsBounded q C) (hu : u root = 0) (hroot : ¬ p.IsMatched root)
    (hfree : p.rowOf[j₀] = none) (hscan : IsScan p.toMatching root (some i) trail s)
    (h : IsMeasured p.toMatching (fun i j => (q i j : WithTop ℚ)) u v root (some i) trail d s)
    (hi : IsCurrent p.toMatching root trail d i x) (hd : ∀ k, ((-C : ℚ) : WithTop ℚ) ≤ d k) :
    ∀ st ∈ s.stages cost p root (.ofTop (x : WithTop ℚ)) i, ∀ z ∈ st.results cost,
      z.Within (8 * C) := by
  have hC := hcost.nonneg
  have hwithin : p.IsWithin C u v :=
    hp.supported.isWithin hp.freeAtZero hC hcost.magnitude hfree
  have hv₀ := hp.freeAtZero.free j₀ hfree
  -- Induction on the number of columns that have not been scanned.
  induction hcount : s.unscanned.count using Nat.strong_induction_on
    generalizing s trail d i x with
  | _ count ih =>
    have hx := hi.within h hcost hroot hu (hscan.isTrail.not_mem_of_free hfree) hv₀ hd
    have hui := hi.row_within hwithin hC hu
    have hvisit := visit_within (s := s) hp.reads hcost hwithin hui hx
    obtain ⟨t, d', hscan', h', rfl, hround⟩ :=
      exists_round hp.reads hp.consistent hroot hp.supported.below hfree hscan h hi
    have hd' := hi.low_le_shortened hp hcost hu hx.1 hd
    generalize Matching.shortened (fun i j => (q i j : WithTop ℚ)) u v i x d = d' at *
    rcases hround with ⟨hround, -⟩ | ⟨k, j, y, hj, hfresh, hmin, hy, hinf, hround⟩
    · rw [stages_of_unreachable hround, List.forall_mem_singleton]
      exact hvisit
    · rcases hround with ⟨hfreej, hround⟩ | ⟨i', -, hround, hscan'', h'', hi'⟩
      · have hend := hscan'.endsAt hj hinf hfreej
        have hyC : -C ≤ y ∧ y ≤ C := by
          have hlow := hd' j
          have hhigh := (hmin j₀ (hscan'.isTrail.not_mem_of_free hfree)).trans
            (h'.le_free hcost (by simp) hu hv₀)
          rw [hy, WithTop.coe_le_coe] at hlow hhigh
          exact ⟨hlow, hhigh⟩
        rw [stages_of_reached hround, List.forall_mem_cons, List.forall_mem_singleton]
        refine ⟨hvisit, advance_within hp hcost hwithin hu hend hyC fun l hl => ?_⟩
        have hle : d' l ≤ (y : WithTop ℚ) := by
          rw [← hy]
          rcases hl with rfl | hl
          · exact le_rfl
          · exact h'.beyond l hl j hfresh
        obtain ⟨z, hz, hbounds⟩ := exists_coe_of_le (hd' l) hle
        exact ⟨z, (h'.distance l).trans (congrArg _ hz), hbounds⟩
      · rw [stages_of_passed hround, List.forall_mem_cons]
        exact ⟨hvisit, ih _ (hcount ▸ count_lt_of_round hround) hscan'' h'' hi' hd' rfl⟩

end PathSearch

namespace Rectangular

namespace Progress

variable {p : Progress (Exact bound bids) n m}

def IsLimited (cost : CostMatrix (Exact bound bids) n m) (q : Fin n → Fin m → ℚ)
    (p : Progress (Exact bound bids) n m) : Prop :=
  ∃ u v, IsSound cost (fun i j => (q i j : WithTop ℚ)) u v p.toDualMatching ∧
    ∀ r, ¬ p.IsMatched r → u r = 0

theorem isLimited_initial (hcost : cost.IsBounded q C) :
    (initial : Progress (Exact bound bids) n m).IsLimited cost q :=
  ⟨_, _, isSound_initial hcost.entry, fun _ _ => rfl⟩

theorem IsLimited.searchStages_within (h : p.IsLimited cost q) (hcost : cost.IsBounded q C)
    (hi : ¬ p.IsMatched i) :
    ∀ st ∈ p.searchStages cost i, ∀ z ∈ st.results cost, z.Within (8 * C) := by
  obtain ⟨u, v, hp, hu⟩ := h
  obtain ⟨j₀, hj₀⟩ := hp.consistent.exists_free hi hcost.le
  exact PathSearch.stages_within hp hcost (hu i hi) hi hj₀ (PathSearch.isScan_start _ _ _)
    (PathSearch.isMeasured_start _) (.inl ⟨rfl, rfl, rfl⟩) fun _ => le_top

theorem rowPotential_advance {s : PathSearch (Exact bound bids) n m}
    {sink : Sink (Exact bound bids) m}
    (hends : PathSearch.Ends p.toMatching (fun i j => (q i j : WithTop ℚ)) u v i (s, some sink))
    {r : Fin n} (hri : r ≠ i) (hr : ¬ p.IsMatched r) :
    (p.advance s i sink).rowPotential[r] = p.rowPotential[r] := by
  have hscanned : s.scannedRows[r] = false := by
    cases hends with
    | arrived k j scan measured position fresh free least finite =>
      have hrow := scan.row r
      rw [Bool.eq_false_iff]
      intro hs
      rcases hrow.mp (.inl hs) with rfl | ⟨l, -, hl⟩
      · exact hri rfl
      · exact hr ⟨l, hl⟩
  simp only [advance, getElem_ofFn_fin, raisedRow, if_neg hri, hscanned, Bool.false_eq_true,
    if_false]

/-- A row finds its column, since no pairing is forbidden. -/
theorem IsLimited.exists_search (h : p.IsLimited cost q) (hcost : cost.IsBounded q C)
    (hi : ¬ p.IsMatched i) :
    ∃ s sink, p.search cost i = .ok (s, some sink) ∧ (p.advance s i sink).IsLimited cost q ∧
      ∀ r, (p.advance s i sink).IsMatched r ↔ r = i ∨ p.IsMatched r := by
  obtain ⟨u, v, hp, hu⟩ := h
  obtain ⟨⟨s, found⟩, hsearch, hends⟩ := search_ends hp hi hcost.le
  cases found with
  | none =>
    obtain ⟨r, hr⟩ := not_injective_of_blocked hp.consistent hi hends
      (Fin.castLE_injective hcost.le)
    exact absurd hr WithTop.coe_ne_top
  | some sink =>
    obtain ⟨⟨u', v', hp'⟩, hmatched⟩ := isSound_advance hp hi hends
    refine ⟨s, sink, hsearch, ⟨u', v', hp', fun r hr => ?_⟩, hmatched⟩
    rw [hmatched, not_or] at hr
    have hrow := rowPotential_advance hends hr.1 hr.2
    rw [hp'.reads.row, hp.reads.row, hu r hr.2, Exact.ofTop_injective.eq_iff,
      WithTop.coe_inj] at hrow
    exact hrow

theorem matchStages_within (hcost : cost.IsBounded q C) (rows : List (Fin n))
    (h : p.IsLimited cost q) (hrows : ∀ r, p.IsMatched r ↔ r ∉ rows) (hnodup : rows.Nodup) :
    ∀ st ∈ matchStages cost rows p, ∀ z ∈ st.results cost, z.Within (8 * C) := by
  induction rows generalizing p with
  | nil => simp [matchStages]
  | cons i rows ih =>
    obtain ⟨hfresh, hnodup⟩ := List.nodup_cons.mp hnodup
    have hi : ¬ p.IsMatched i := fun hm => (hrows i).mp hm List.mem_cons_self
    obtain ⟨s, sink, hsearch, hlimited, hmatched⟩ := h.exists_search hcost hi
    rw [matchStages, hsearch, List.forall_mem_append]
    refine ⟨h.searchStages_within hcost hi, ih hlimited (fun r => ?_) hnodup⟩
    rw [hmatched, hrows, List.mem_cons, not_or]
    by_cases hr : r = i
    · simp [hr, hfresh]
    · simp [hr]

end Progress

/-- No result of an addition or subtraction exceeds eight times the largest entry. -/
theorem stages_within (hcost : cost.IsBounded q C) :
    ∀ st ∈ stages cost, ∀ z ∈ st.results cost, z.Within (8 * C) :=
  Progress.matchStages_within hcost _ (Progress.isLimited_initial hcost)
    (fun r => iff_of_false (Matching.not_isMatched_empty r) (by simp)) (List.nodup_finRange n)

theorem exists_solveWide (hcost : cost.IsBounded q C) :
    ∃ s, (solveWide cost).outcome = .ok (some s) := by
  obtain ⟨u, v, hinitial, -⟩ := Progress.isLimited_initial hcost
  rcases Progress.matchRows_outcome (List.finRange n) .initial u v hinitial
    (fun r => iff_of_false (Matching.not_isMatched_empty r) (by simp)) (List.nodup_finRange n)
    hcost.le with ⟨s, -, -, hs, -⟩ | ⟨-, hnone⟩
  · exact ⟨s, hs⟩
  · obtain ⟨r, hr⟩ := hnone _ (Fin.castLE_injective hcost.le)
    exact absurd hr WithTop.coe_ne_top

end Rectangular

end LinearAssignment
