import LinearAssignment.Proofs.Dense.Stages
import LinearAssignment.Proofs.Magnitude

/-! No result of the dense solver is large against the entries of the matrix, however often prices
fall. A row that bids or searches has no column, so some column is free and costs nothing. -/
namespace LinearAssignment

variable {bound : ℚ} {bids n m : ℕ} {cost : CostMatrix (Exact bound bids) n m}
  {q : Fin n → Fin m → ℚ} {C : ℚ} {u : Fin n → ℚ} {v : Fin m → ℚ} {i root : Fin n} {j j₀ : Fin m}

namespace PricedMatching

variable {s p : PricedMatching (Exact bound bids) n m}

theorem IsSound.isWithin (h : s.IsSound cost (fun i j => (q i j : WithTop ℚ)) u v)
    (hcost : cost.IsBounded q C) (hj₀ : s.rowOf[j₀] = none) : s.IsWithin C u v :=
  h.supported.isWithin h.freeAtZero (hcost.nonneg) hcost.magnitude hj₀

theorem IsSound.entry_sub_price (h : s.IsSound cost (fun i j => (q i j : WithTop ℚ)) u v)
    (i : Fin n) (j : Fin m) : cost[i][j] - s.price[j] = .number (q i j - v j) := by
  rw [h.cost, h.price, Exact.ofTop_coe_sub, Exact.ofTop_coe]

theorem IsSound.entry_within (h : s.IsSound cost (fun i j => (q i j : WithTop ℚ)) u v)
    (hcost : cost.IsBounded q C) (hwithin : s.IsWithin C u v) (i : Fin n) (j : Fin m) :
    (cost[i][j] - s.price[j]).Within (5 * C) := by
  have hC := hcost.nonneg
  rw [h.entry_sub_price]
  exact Exact.within_number (by linarith [hcost.low i j, hwithin.nonpos j])
    (by linarith [hcost.high i j, hwithin.low j])

theorem IsSound.reduced_within (h : s.IsSound cost (fun i j => (q i j : WithTop ℚ)) u v)
    (hcost : cost.IsBounded q C) (hj₀ : s.rowOf[j₀] = none) (i : Fin n) (k : Fin m) :
    (Bid.reduced cost[i] s.price)[k].Within (5 * C) := by
  rw [Bid.reduced, getElem_zipWith_fin]
  exact h.entry_within hcost (h.isWithin hcost hj₀) i k

variable {b : Bid (Exact bound bids) m} {x y : ℚ}

theorem eq_sub_of_coe_eq (h : (q i j : WithTop ℚ) + ((-v j : ℚ) : WithTop ℚ) = (x : WithTop ℚ)) :
    x = q i j - v j := by
  rw [← WithTop.coe_add, WithTop.coe_inj] at h
  linarith

/-- A row would pay no more than its entry for a free column, nor for the second column more than
its entry there and what the price has fallen by. -/
theorem IsSound.offer_le (h : s.IsSound cost (fun i j => (q i j : WithTop ℚ)) u v)
    (hcost : cost.IsBounded q C) (hj₀ : s.rowOf[j₀] = none)
    (hbetween : b.IsBetween (fun j => (q i j : WithTop ℚ) + ((-v j : ℚ) : WithTop ℚ)) x y) :
    x ≤ C ∧ y ≤ 3 * C := by
  have hwithin := h.isWithin hcost hj₀
  have hhigh := hcost.high i
  have hv₀ := h.freeAtZero.free j₀ hj₀
  have hothers : ∀ k, k ≠ b.best → y ≤ q i k - v k := by
    intro k hk
    have hle := hbetween.others k hk
    rw [← WithTop.coe_add, WithTop.coe_le_coe] at hle
    linarith
  have hx : x ≤ C := by
    by_cases hk : j₀ = b.best
    · rw [eq_sub_of_coe_eq hbetween.best, ← hk, hv₀]
      linarith [hhigh j₀]
    · linarith [hothers j₀ hk, hbetween.le, hhigh j₀]
  refine ⟨hx, ?_⟩
  by_cases hm : m = 1
  · linarith [hbetween.alone hm, hcost.nonneg]
  · have hlt := b.best.isLt
    have : Nontrivial (Fin m) := Fin.nontrivial_iff_two_le.mpr (by omega)
    obtain ⟨k, hk⟩ := exists_ne b.best
    linarith [hothers k hk, hhigh k, hwithin.low k]

theorem IsSound.bid_within (h : s.IsSound cost (fun i j => (q i j : WithTop ℚ)) u v)
    (hcost : cost.IsBounded q C) (hj₀ : s.rowOf[j₀] = none)
    (hb : Bid.ofRow cost[i] s.price s.isFree = .ok b)
    (hbetween : b.IsBetween (fun j => (q i j : WithTop ℚ) + ((-v j : ℚ) : WithTop ℚ)) x y) :
    ∀ z ∈ (Dense.Stage.bid s i).results cost, z.Within (5 * C) := by
  have hwithin := h.isWithin hcost hj₀
  have hnonpos := hwithin.nonpos b.best
  have hlow := hcost.low i b.best
  have hbest := eq_sub_of_coe_eq hbetween.best
  have hle := hbetween.le
  obtain ⟨hx, hy⟩ := h.offer_le hcost hj₀ hbetween
  rw [Dense.Stage.forall_results_bid]
  refine ⟨h.reduced_within hcost hj₀ i, fun b' hb' => ?_⟩
  obtain rfl := Except.ok.inj (hb.symm.trans hb')
  rw [hbetween.second, hbetween.least, Exact.ofTop_coe_sub, h.lowered_eq hbetween]
  exact ⟨Exact.within_number (by linarith) (by linarith),
    Exact.within_number (by linarith) (by linarith)⟩

/-- A row without column finds a bid, and the price that it lowers stays within bounds. -/
theorem IsSound.exists_bid_within (h : s.IsSound cost (fun i j => (q i j : WithTop ℚ)) u v)
    (hcost : cost.IsBounded q C) (hi : ¬ s.IsMatched i) :
    ∃ b x y j r, s.bid cost i = .ok r ∧ s.Takes i b j r ∧
      b.IsBetween (fun j => (q i j : WithTop ℚ) + ((-v j : ℚ) : WithTop ℚ)) x y ∧
      -(5 * C) ≤ v j - (y - x) ∧ ∀ z ∈ (Dense.Stage.bid s i).results cost, z.Within (5 * C) := by
  obtain ⟨j₀, hj₀⟩ := h.consistent.exists_free hi hcost.le
  have hroom : (q i j₀ : WithTop ℚ) + ((-v j₀ : ℚ) : WithTop ℚ) < (bound : WithTop ℚ) := by
    rw [← WithTop.coe_add, WithTop.coe_lt_coe, h.freeAtZero.free j₀ hj₀]
    linarith [hcost.high i j₀, hcost.lt_bound, hcost.nonneg]
  obtain ⟨b, x, y, j, r, hb, hr, htakes, hbetween⟩ := h.exists_bid_of_lt hcost.le hi hroom
  obtain ⟨-, hj, -⟩ := h.price_bid hbetween htakes
  obtain ⟨-, hy⟩ := h.offer_le hcost hj₀ hbetween
  have hfall : -(5 * C) ≤ v j - (y - x) := by
    linarith [eq_sub_of_coe_eq hj, hcost.low i j, hcost.nonneg]
  exact ⟨b, x, y, j, r, hr, htakes, hbetween, hfall, h.bid_within hcost hj₀ hb hbetween⟩

end PricedMatching

namespace ColumnSearch

variable {p : PricedMatching (Exact bound bids) n m} {d : Fin m → WithTop ℚ} {μ : ℚ}
  {s t : ColumnSearch (Exact bound bids) n m} {filled : ℕ}

/-- The first ways are those from the root, and no way is dearer later on. -/
theorem IsMeasured.le_way_root
    (h : IsMeasured p.toMatching (fun i j => (q i j : WithTop ℚ)) u v root d μ s)
    (hu : u root = 0) (k : Fin m) : d k ≤ ((q root k - v k : ℚ) : WithTop ℚ) := by
  refine (h.upper (.inl ⟨rfl, rfl⟩) k).trans_eq ?_
  rw [hu, ← WithTop.coe_add]
  congr 1
  ring

/-- While a search goes on, its minimum is at most the way from the root to a free column. -/
theorem IsMeasured.minimum_within
    (h : IsMeasured p.toMatching (fun i j => (q i j : WithTop ℚ)) u v root d μ t)
    (hcost : cost.IsBounded q C) (hscan : IsScan p.toMatching root filled t)
    (hup : t.low < t.up) (hu : u root = 0) (hfree : p.rowOf[j₀] = none) (hv₀ : v j₀ = 0)
    (hd : ∀ k, ((-C : ℚ) : WithTop ℚ) ≤ d k) : -C ≤ μ ∧ μ ≤ C := by
  have hout : j₀ ∉ t.order.trail t.low := hscan.isTrail.not_mem_of_free hfree
  constructor
  · obtain ⟨a, ha⟩ : ∃ a : Fin m, a.val = t.low := ⟨⟨t.low, hup.trans_le hscan.up_le⟩, rfl⟩
    have hlevel := h.level a (hscan.settled_le.trans ha.ge) (ha.trans_lt hup)
    exact WithTop.coe_le_coe.mp ((hd _).trans_eq hlevel)
  · have hle := WithTop.coe_le_coe.mp ((h.minimum_le hscan hup hout).trans (h.le_way_root hu j₀))
    linarith [hcost.high root j₀]

theorem IsMeasured.scan_within
    (h : IsMeasured p.toMatching (fun i j => (q i j : WithTop ℚ)) u v root d μ t)
    (hp : p.IsSound cost (fun i j => (q i j : WithTop ℚ)) u v) (hcost : cost.IsBounded q C)
    (hwithin : p.IsWithin C u v) (hμ : -C ≤ μ ∧ μ ≤ C) (hi : p.rowOf[j] = some i) :
    ∀ z ∈ (Dense.Stage.scan p t i j).results cost, z.Within (5 * C) := by
  have hC := hcost.nonneg
  have hlow := hwithin.row_low ⟨j, hi⟩
  have hhigh := hwithin.row_high ⟨j, hi⟩
  have hbase : cost[i][j] - p.price[j] - t.minimum = .number (u i - μ) := by
    rw [hp.entry_sub_price, h.minimum, ← Exact.ofTop_coe, Exact.ofTop_coe_sub, Exact.ofTop_coe,
      WithTop.coe_inj.mp (hp.supported.tight hi), add_sub_cancel_right]
  have hway : ∀ k, (Labels.way cost[i] p.price (.number (u i - μ)) k).Within (5 * C) := by
    intro k
    rw [← hbase, h.way_scan hp hi, ← WithTop.coe_add, Exact.ofTop_coe]
    exact Exact.within_number (by linarith [hcost.low i k, hwithin.nonpos k])
      (by linarith [hcost.high i k, hwithin.low k])
  rw [Dense.Stage.forall_results_scan, hbase]
  exact ⟨hp.entry_within hcost hwithin i j,
    Exact.within_number (by linarith) (by linarith),
    fun k _ => ⟨hp.entry_within hcost hwithin i _, hway _⟩⟩

theorem IsMeasured.scanStage_within
    (h : IsMeasured p.toMatching (fun i j => (q i j : WithTop ℚ)) u v root d μ t)
    (hp : p.IsSound cost (fun i j => (q i j : WithTop ℚ)) u v) (hcost : cost.IsBounded q C)
    (hwithin : p.IsWithin C u v) (hμ : -C ≤ μ ∧ μ ≤ C) (ht : s.advance = .ok t) :
    ∀ st ∈ (s.scanStage? p).toList, ∀ z ∈ st.results cost, z.Within (5 * C) := by
  intro st hst
  obtain ⟨t', a, i, ht', -, -, hi, rfl⟩ := scanStage?_eq_some (Option.mem_toList.mp hst)
  obtain rfl := Except.ok.inj (ht.symm.trans ht')
  exact h.scan_within hp hcost hwithin hμ hi

theorem IsMeasured.exists_settled
    (h : IsMeasured p.toMatching (fun i j => (q i j : WithTop ℚ)) u v root d μ t)
    (hd : ∀ k, ((-C : ℚ) : WithTop ℚ) ≤ d k) {a : Fin m} (ha : a.val < t.up) :
    ∃ x : ℚ, t.distance[t.order[a]] = .ofTop (x : WithTop ℚ) ∧ -C ≤ x ∧ x ≤ μ := by
  obtain ⟨x, hx, hbounds⟩ := exists_coe_of_le (hd t.order[a]) (h.le_minimum a ha)
  exact ⟨x, (h.distance _).trans (congrArg _ hx), hbounds⟩

theorem concede_within (hwithin : p.IsWithin C u v)
    (hprice : ∀ j : Fin m, p.price[j] = .ofTop (v j)) (hC : 0 ≤ C)
    (hnodup : (t.order.slice 0 t.settled).Nodup) (hμ : -C ≤ μ ∧ μ ≤ C)
    (hminimum : t.minimum = .ofTop (μ : WithTop ℚ))
    (hsettled : ∀ k ∈ t.order.slice 0 t.settled,
      ∃ x : ℚ, t.distance[k] = .ofTop (x : WithTop ℚ) ∧ -C ≤ x ∧ x ≤ μ) :
    ∀ z ∈ (Dense.Stage.concede p t).results cost, z.Within (5 * C) := by
  rw [Dense.Stage.forall_results_concede hnodup]
  intro k hk
  obtain ⟨x, hdistance, hlow, hhigh⟩ := hsettled k hk
  rw [hdistance, hprice, hminimum, Exact.ofTop_coe_add, Exact.ofTop_coe_sub]
  exact ⟨Exact.within_number (by linarith [hwithin.low k]) (by linarith [hwithin.nonpos k]),
    Exact.within_number (by linarith [hwithin.low k]) (by linarith [hwithin.nonpos k])⟩

theorem stages_within (hp : p.IsSound cost (fun i j => (q i j : WithTop ℚ)) u v)
    (hcost : cost.IsBounded q C) (hu : u root = 0) (hroot : ¬ p.IsMatched root)
    (hfree : p.rowOf[j₀] = none) (hscan : IsScan p.toMatching root s.up s)
    (h : IsMeasured p.toMatching (fun i j => (q i j : WithTop ℚ)) u v root d μ s)
    (hd : ∀ k, ((-C : ℚ) : WithTop ℚ) ≤ d k) :
    ∀ st ∈ s.stages cost p, ∀ z ∈ st.results cost, z.Within (5 * C) := by
  have hwithin := hp.isWithin hcost hfree
  have hC := hcost.nonneg
  -- Induction on the number of columns that have not been scanned.
  induction hleft : m - s.low using Nat.strong_induction_on generalizing s d μ with
  | _ left ih =>
    obtain ⟨t, a, ht, ha, hlow, hup, hround⟩ := exists_round cost hscan hfree
    obtain ⟨-, -, hfilled⟩ := hscan.advance ht
    obtain ⟨μ', h'⟩ := h.advance hscan hp.consistent hroot (Fin.castLE_injective hcost.le)
      (fun _ => WithTop.coe_ne_top) ht
    have hμ := h'.minimum_within hcost hfilled hup hu hfree (hp.freeAtZero.free j₀ hfree) hd
    have hscanned := h'.scanStage_within hp hcost hwithin hμ ht
    have hsettled_lt : t.settled < t.up := hfilled.settled_le.trans_lt hup
    rcases hround with ⟨sink, filled, hround, -⟩ | ⟨i, hi, hfill, hnext, hround⟩
    · rw [stages_of_found hround, List.forall_mem_append, List.forall_mem_singleton]
      refine ⟨hscanned, concede_within hwithin hp.price hC hfilled.nodup_settled hμ h'.minimum
        fun k hk => ?_⟩
      obtain ⟨b, -, hb, rfl⟩ := ColumnOrder.mem_slice.mp hk
      exact h'.exists_settled hd (hb.trans hsettled_lt)
    · cases hfound : (t.scan cost p i t.order[a]).2 with
      | some sink =>
        have hr := isRelaxed_scan cost hfill i t.order[a]
        rw [hfound] at hround
        rw [stages_of_found hround, List.forall_mem_append, List.forall_mem_singleton]
        refine ⟨hscanned, concede_within hwithin hp.price hC hnext.nodup_settled hμ h'.minimum
          fun k hk => ?_⟩
        obtain ⟨b, -, hb, rfl⟩ := ColumnOrder.mem_slice.mp hk
        have hbu : b.val < t.up := Nat.lt_trans hb hsettled_lt
        rw [hr.before b hbu]
        obtain ⟨x, hx, hle⟩ := h'.exists_settled hd hbu
        exact ⟨x, (hr.distance b hbu).trans hx, hle⟩
      | none =>
        rw [hfound] at hround
        have hstep := low_of_round hround
        rw [stages_of_passed hround, List.forall_mem_append]
        refine ⟨hscanned, ih _ (by omega) hnext (h'.scan hp hfill ha hup hi hfound) ?_ rfl⟩
        intro k
        exact le_min (hd k)
          ((WithTop.coe_le_coe.mpr hμ.1).trans (IsMeasured.minimum_le_way hp hi k))

end ColumnSearch

namespace PricedMatching

variable {s p : PricedMatching (Exact bound bids) n m}

theorem IsSound.augmentStages_within
    (h : p.IsSound cost (fun i j => (q i j : WithTop ℚ)) u v) (hcost : cost.IsBounded q C)
    (hi : ¬ p.IsMatched i) :
    ∀ st ∈ p.augmentStages cost i, ∀ z ∈ st.results cost, z.Within (5 * C) := by
  obtain ⟨j₀, hj₀⟩ := h.consistent.exists_free hi hcost.le
  have h₀ := h.update hi 0
  have hu₀ : Function.update u i 0 i = 0 := Function.update_self i 0 u
  rw [augmentStages, List.forall_mem_cons, Dense.Stage.forall_results_start]
  refine ⟨h.reduced_within hcost hj₀ i, ?_⟩
  apply ColumnSearch.stages_within h₀ hcost hu₀ hi hj₀ (ColumnSearch.isScan_start cost[i] p.price)
    (ColumnSearch.isMeasured_start h₀ hu₀)
  intro k
  rw [hu₀, ← WithTop.coe_add, WithTop.coe_le_coe]
  linarith [hcost.low i k, h.freeAtZero.nonpos k]

def IsLimited (cost : CostMatrix (Exact bound bids) n m) (q : Fin n → Fin m → ℚ) (C : ℚ)
    (s : PricedMatching (Exact bound bids) n m) : Prop :=
  ∃ u v, s.IsSound cost (fun i j => (q i j : WithTop ℚ)) u v ∧ ∀ j, -(5 * C) ≤ v j

theorem IsLimited.consistent (h : s.IsLimited cost q C) : s.Consistent := by
  obtain ⟨u, v, hs, -⟩ := h
  exact hs.consistent

theorem isLimited_initial (hcost : cost.IsBounded q C) :
    (initial : PricedMatching (Exact bound bids) n m).IsLimited cost q C := by
  refine ⟨_, _, isSound_initial hcost.entry, fun _ => ?_⟩
  linarith [hcost.nonneg]

theorem IsLimited.exists_bid (h : s.IsLimited cost q C) (hcost : cost.IsBounded q C)
    (hi : ¬ s.IsMatched i) :
    ∃ b j r, s.bid cost i = .ok r ∧ s.Takes i b j r ∧ r.1.IsLimited cost q C := by
  obtain ⟨u, v, hs, hv⟩ := h
  obtain ⟨b, x, y, j, r, hr, htakes, hbetween, hlow, -⟩ := hs.exists_bid_within hcost hi
  refine ⟨b, j, r, hr, htakes, _, _, hs.bid hi hbetween htakes, fun k => ?_⟩
  rw [Function.update_apply]
  split
  next => exact hlow
  next => exact hv k

theorem IsLimited.reductionStages_within (h : s.IsLimited cost q C) (hcost : cost.IsBounded q C)
    {free : List (Fin n)} (hfree : s.Misses free) :
    ∀ st ∈ s.reductionStages cost free, ∀ z ∈ st.results cost, z.Within (5 * C) := by
  rw [reductionStages, List.forall_mem_map]
  intro x hx
  obtain ⟨⟨u, v, hs, -⟩, hi⟩ := @bidders_keep _ _ _ _ cost (IsLimited cost q C)
    (fun _ hs => hs.consistent) (fun _ _ hs hi => hs.exists_bid hcost hi) _ s free [] h
    (by rwa [List.append_nil]) x hx
  obtain ⟨_, _, _, _, _, _, _, _, _, hresults⟩ := hs.exists_bid_within hcost hi
  exact hresults

theorem IsLimited.exists_reduceRows (h : s.IsLimited cost q C) (hcost : cost.IsBounded q C)
    {free : List (Fin n)} (hfree : s.Misses free) :
    ∃ t free', s.reduceRows cost free = .ok (t, free') ∧ t.IsLimited cost q C ∧ t.Misses free' :=
  bidAll_outcome (IsLimited cost q C) (fun _ hs => hs.consistent)
    (fun _ _ hs hi => hs.exists_bid hcost hi) _ s free [] h (by rwa [List.append_nil])

theorem IsLimited.exists_augmentRow (h : p.IsLimited cost q C) (hcost : cost.IsBounded q C)
    (hi : ¬ p.IsMatched i) :
    ∃ t, p.augmentRow cost i = .ok t ∧ t.IsLimited cost q C ∧
      ∀ r, t.IsMatched r ↔ r = i ∨ p.IsMatched r := by
  obtain ⟨u, v, hp, hv⟩ := h
  obtain ⟨t, u', v', ht, hsound, hmatched, -⟩ := augmentRow_outcome
    (Fin.castLE_injective hcost.le) (fun _ => WithTop.coe_ne_top) hp hi
  refine ⟨t, ht, ⟨u', v', hsound, fun k => ?_⟩, hmatched⟩
  rcases price_of_augmentRow hp.consistent hi hcost.le ht k with hk | ⟨st, hst, hk⟩
  · rw [hsound.price, hp.price, Exact.ofTop_injective.eq_iff, WithTop.coe_inj] at hk
    exact hk ▸ hv k
  · obtain ⟨x, hx, hxC⟩ := hp.augmentStages_within hcost hi st hst _ hk
    rw [hsound.price, Exact.ofTop_eq_number, WithTop.coe_inj] at hx
    exact hx ▸ (abs_le.mp hxC).1

end PricedMatching

namespace Dense

variable {p : PricedMatching (Exact bound bids) n m}

theorem augmentAllStages_within (hcost : cost.IsBounded q C) (free : List (Fin n))
    (h : p.IsLimited cost q C) (hfree : p.Misses free) :
    ∀ st ∈ augmentAllStages cost free p, ∀ z ∈ st.results cost, z.Within (8 * C) := by
  induction free generalizing p with
  | nil =>
    obtain ⟨u, v, hp, hv⟩ := h
    rw [augmentAllStages, List.forall_mem_singleton, Stage.forall_results_finish]
    intro i j _
    have hC := hcost.nonneg
    rw [hp.entry_sub_price]
    exact Exact.within_number (by linarith [hcost.low i j, hp.freeAtZero.nonpos j])
      (by linarith [hcost.high i j, hv j])
  | cons i rest ih =>
    have hi : ¬ p.IsMatched i := (hfree.mem_iff i).mp List.mem_cons_self
    have hwithin := h
    obtain ⟨u, v, hp, -⟩ := hwithin
    obtain ⟨t, ht, hlimited, hmatched⟩ := h.exists_augmentRow hcost hi
    rw [augmentAllStages, ht, List.forall_mem_append]
    refine ⟨fun st hst z hz => ?_, ih hlimited (hfree.tail hmatched)⟩
    exact (hp.augmentStages_within hcost hi st hst z hz).mono (by linarith [hcost.nonneg])

/-- No result of an addition or subtraction exceeds eight times the largest entry. -/
theorem stages_within (hcost : cost.IsBounded q C) :
    ∀ st ∈ stages cost, ∀ z ∈ st.results cost, z.Within (8 * C) := by
  have hC : 5 * C ≤ 8 * C := by linarith [hcost.nonneg]
  have hinitial := PricedMatching.isLimited_initial hcost
  obtain ⟨t, free, ht, hlimited, hfree⟩ :=
    hinitial.exists_reduceRows hcost Matching.misses_empty
  obtain ⟨t', free', ht', hlimited', hfree'⟩ := hlimited.exists_reduceRows hcost hfree
  simp only [stages, secondPhaseStages, ht, ht', List.forall_mem_append]
  refine ⟨fun st hst z hz => ?_, fun st hst z hz => ?_,
    augmentAllStages_within hcost _ hlimited' hfree'⟩
  · exact (hinitial.reductionStages_within hcost Matching.misses_empty st hst z hz).mono hC
  · exact (hlimited.reductionStages_within hcost hfree st hst z hz).mono hC

theorem exists_solveWide (hcost : cost.IsBounded q C) :
    ∃ s, (solveWide cost).outcome = .ok s := by
  obtain ⟨p, hp, -⟩ := complete_keeps (PricedMatching.IsLimited cost q C)
    (PricedMatching.isLimited_initial hcost)
    (fun _ _ hs hfree => hs.exists_reduceRows hcost hfree)
    (fun _ _ hp hi => hp.exists_augmentRow hcost hi)
  exact ⟨_, Run.outcome_bind hp _⟩

end Dense

end LinearAssignment
