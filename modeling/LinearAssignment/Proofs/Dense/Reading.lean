import LinearAssignment.Proofs.Dense.SearchReading

/-! The dense solver in an arithmetic that can be read as exact: if the exact results of a run can
all be represented, the run comes to the same stages, calculates these results and ends alike. -/
namespace LinearAssignment

def Dense.Event.map {α β : Type} (g : α → β) : Dense.Event α → Dense.Event β
  | .rowReduction phase free => .rowReduction phase free
  | .augment row step free => .augment row step free
  | .done total => .done (g total)

variable {α : Type} [Cost α] {bound : ℚ} {bids n m : ℕ} {read : α → Exact bound bids}
  {P : ℚ → Prop} {cost : CostMatrix α n m} {p : PricedMatching α n m} {i : Fin n}

namespace ColumnSearch

variable {s t : ColumnSearch α n m}

theorem concede_map (h : Cost.IsReading read P) {price : Vector α m} {j : Fin m}
    (hsum : (read price[j] + read s.distance[j]).Meets P)
    (hlowered : (read price[j] + read s.distance[j] - read s.minimum).Meets P) :
    (s.map read).concede (price.map read) j = (s.concede price j).map read := by
  rw [concede, concede, map_setIfInBounds]
  simp only [map, Labels.map, getElem_map_fin]
  rw [← h.add hsum] at hlowered ⊢
  rw [h.sub hlowered]

theorem concessions_map (h : Cost.IsReading read P) (js : List (Fin m)) (price : Vector α m)
    (hresults : ∀ x ∈ (s.map read).concessions js (price.map read), x.Meets P) :
    (s.map read).concessions js (price.map read) = (s.concessions js price).map read ∧
      js.foldl (s.map read).concede (price.map read) = (js.foldl s.concede price).map read := by
  induction js generalizing price with
  | nil => exact ⟨rfl, rfl⟩
  | cons j js ih =>
    simp only [concessions, List.forall_mem_cons] at hresults
    obtain ⟨hsum, hlowered, hrest⟩ := hresults
    simp only [map, Labels.map, getElem_map_fin] at hsum hlowered
    have hconcede := concede_map h hsum hlowered
    rw [hconcede] at hrest
    obtain ⟨hconcessions, hfold⟩ := ih _ hrest
    rw [List.foldl_cons, List.foldl_cons, hconcede, concessions, hconcede, hconcessions, hfold]
    refine ⟨?_, rfl⟩
    rw [← h.add hsum] at hlowered
    simp only [map, Labels.map, getElem_map_fin, concessions, List.map_cons, ← h.add hsum,
      ← h.sub hlowered]

theorem newPrices_map (h : Cost.IsReading read P)
    (hresults : ∀ x ∈ (Dense.Stage.concede (p.map read) (t.map read)).results
      (cost.mapEntries read), x.Meets P) :
    (t.map read).newPrices (p.map read).price = (t.newPrices p.price).map read :=
  (concessions_map h _ p.price hresults).2

theorem scanStage?_subset_stages (cost : CostMatrix α n m) (p : PricedMatching α n m)
    (s : ColumnSearch α n m) : (s.scanStage? p).toList ⊆ s.stages cost p := by
  rw [stages]
  split
  · exact List.Subset.refl _
  · exact List.subset_append_left _ _
  · exact List.subset_append_left _ _

theorem stages_map (h : Cost.IsReading read P) (s : ColumnSearch α n m)
    (hresults : ∀ st ∈ (s.map read).stages (cost.mapEntries read) (p.map read),
      ∀ z ∈ st.results (cost.mapEntries read), z.Meets P) :
    (s.map read).stages (cost.mapEntries read) (p.map read) =
        (s.stages cost p).map (Dense.Stage.map read) ∧
      (s.map read).run (cost.mapEntries read) (p.map read) =
        (s.run cost p).map fun r => (r.1.map read, r.2) := by
  -- Induction on the number of columns that have not been scanned.
  induction hleft : m - s.low using Nat.strong_induction_on generalizing s with
  | _ left ih =>
    have hscan : ((s.map read).scanStage? (p.map read)).toList =
        (s.scanStage? p).toList.map (Dense.Stage.map read) := by
      rw [scanStage?_map h]
      cases s.scanStage? p <;> rfl
    have hround := round_map h fun st hst => hresults st (scanStage?_subset_stages _ _ _ hst)
    cases hr : s.round cost p with
    | error e =>
      rw [hr] at hround
      exact ⟨by rw [stages_of_error hround, stages_of_error hr, hscan],
        by rw [run, hround, run, hr]; rfl⟩
    | ok r =>
      rw [hr] at hround
      cases r with
      | found t sink =>
        constructor
        · rw [stages_of_found hround, stages_of_found hr, hscan, List.map_append]
          rfl
        · rw [run, hround, run, hr]
          rfl
      | passed t =>
        have hlow := low_of_round hr
        rw [stages_of_passed hround, List.forall_mem_append] at hresults
        obtain ⟨hstages, hrun⟩ := ih _ (by omega) t hresults.2 rfl
        constructor
        · rw [stages_of_passed hround, stages_of_passed hr, hscan, List.map_append, hstages]
        · rw [run, hround, run, hr]
          exact hrun

end ColumnSearch

namespace PricedMatching

variable {s : PricedMatching α n m}

theorem augmentRow_map (h : Cost.IsReading read P)
    (hresults : ∀ st ∈ (p.map read).augmentStages (cost.mapEntries read) i,
      ∀ z ∈ st.results (cost.mapEntries read), z.Meets P) :
    (p.map read).augmentStages (cost.mapEntries read) i =
        (p.augmentStages cost i).map (Dense.Stage.map read) ∧
      (p.map read).augmentRow (cost.mapEntries read) i = (p.augmentRow cost i).map (map read) := by
  rw [augmentStages, List.forall_mem_cons] at hresults
  obtain ⟨hfirst, hrest⟩ := hresults
  have hstart := ColumnSearch.start_map h hfirst
  rw [hstart] at hrest
  obtain ⟨hstages, hrun⟩ := ColumnSearch.stages_map h _ hrest
  constructor
  · rw [augmentStages, augmentStages, hstart, hstages]
    rfl
  · simp only [augmentRow, hstart, hrun]
    cases hr : (ColumnSearch.start cost[i] p.price i).run cost p with
    | error e => rfl
    | ok r =>
      rw [hr] at hrun
      have hprices := ColumnSearch.newPrices_map h
        (hrest _ (ColumnSearch.concede_mem_stages hrun))
      simp only [Except.map, bind, Except.bind, pure, Except.pure, hprices]
      rfl

theorem reduceRows_map (h : Cost.IsReading read P) (s : PricedMatching α n m)
    (free : List (Fin n))
    (hresults : ∀ st ∈ (s.map read).reductionStages (cost.mapEntries read) free,
      ∀ z ∈ st.results (cost.mapEntries read), z.Meets P) :
    (s.map read).reductionStages (cost.mapEntries read) free =
        (s.reductionStages cost free).map (Dense.Stage.map read) ∧
      (s.map read).reduceRows (cost.mapEntries read) free =
        (s.reduceRows cost free).map fun r => (r.1.map read, r.2) := by
  rw [reductionStages, List.forall_mem_map] at hresults
  obtain ⟨hbidders, hall⟩ := bidAll_map h _ s free hresults
  rw [reductionStages, reductionStages, reduceRows, reduceRows, h.levels]
  refine ⟨?_, hall []⟩
  rw [hbidders, List.map_map, List.map_map]
  rfl

theorem initial_map (h : Cost.IsReading read P) :
    (initial : PricedMatching α n m).map read = initial := by
  rw [initial, initial, map, Vector.map_replicate, h.zero]

end PricedMatching

namespace Dense

theorem augmentAll_map (h : Cost.IsReading read P) (free : List (Fin n)) (p : PricedMatching α n m)
    (hresults : ∀ st ∈ augmentAllStages (cost.mapEntries read) free (p.map read),
      ∀ z ∈ st.results (cost.mapEntries read), z.Meets P) :
    augmentAllStages (cost.mapEntries read) free (p.map read) =
        (augmentAllStages cost free p).map (Stage.map read) ∧
      ∀ count step, augmentAll (cost.mapEntries read) count step free (p.map read) =
        (augmentAll cost count step free p).map (Event.map read) (PricedMatching.map read) := by
  induction free generalizing p with
  | nil => exact ⟨rfl, fun _ _ => rfl⟩
  | cons i free ih =>
    rw [augmentAllStages, List.forall_mem_append] at hresults
    obtain ⟨hrow, hrest⟩ := hresults
    obtain ⟨hstages, haugment⟩ := PricedMatching.augmentRow_map h hrow
    rw [haugment] at hrest
    have hnext : ∀ t, p.augmentRow cost i = .ok t → _ := fun t ht => ih t (by
      rw [ht] at hrest
      exact hrest)
    constructor
    · rw [augmentAllStages, augmentAllStages, hstages, haugment, List.map_append]
      cases ht : p.augmentRow cost i with
      | error e => rfl
      | ok t => exact congrArg _ (hnext t ht).1
    · intro count step
      rw [augmentAll, augmentAll, haugment, Run.map_emit_bind]
      congr 1
      funext _
      exact (Run.map_ofExcept_bind fun t ht => (hnext t ht).2 count (step + 1)).symm

theorem finish_mem_augmentAllStages {count step : ℕ} {free : List (Fin n)}
    {t : PricedMatching α n m} (h : (augmentAll cost count step free p).outcome = .ok t) :
    .finish t ∈ augmentAllStages cost free p := by
  induction free generalizing step p with
  | nil =>
    obtain rfl := Except.ok.inj h
    exact List.mem_singleton.mpr rfl
  | cons i free ih =>
    rw [augmentAll, Run.outcome_emit_bind] at h
    rw [augmentAllStages]
    cases hr : p.augmentRow cost i with
    | error e =>
      rw [hr] at h
      exact absurd h (by simp [Run.ofExcept, bind, Run.bind])
    | ok p' =>
      rw [Run.outcome_ofExcept_bind hr] at h
      exact List.mem_append_right _ (ih h)

def secondPhase (cost : CostMatrix α n m) (s : PricedMatching α n m) (free : List (Fin n)) :
    Run (Event α) SearchError (PricedMatching α n m) := do
  let (p, free) ← .ofExcept (s.reduceRows cost free)
  .emit (.rowReduction 2 free.length)
  augmentAll cost free.length 1 free p

theorem complete_eq (cost : CostMatrix α n m) : complete cost = (do
    let (p, free) ← .ofExcept (PricedMatching.initial.reduceRows cost (List.finRange n))
    .emit (.rowReduction 1 free.length)
    secondPhase cost p free) := rfl

theorem finish_mem_secondPhaseStages {s t : PricedMatching α n m} {free : List (Fin n)}
    (h : (secondPhase cost s free).outcome = .ok t) :
    .finish t ∈ secondPhaseStages cost s free := by
  rw [secondPhase] at h
  rw [secondPhaseStages]
  cases hr : s.reduceRows cost free with
  | error e =>
    rw [hr] at h
    exact absurd h (by simp [Run.ofExcept, bind, Run.bind])
  | ok r =>
    rw [Run.outcome_ofExcept_bind hr, Run.outcome_emit_bind] at h
    exact List.mem_append_right _ (finish_mem_augmentAllStages h)

theorem finish_mem_stages {t : PricedMatching α n m} (h : (complete cost).outcome = .ok t) :
    .finish t ∈ stages cost := by
  rw [complete_eq] at h
  rw [stages]
  cases hr : PricedMatching.initial.reduceRows cost (List.finRange n) with
  | error e =>
    rw [hr] at h
    exact absurd h (by simp [Run.ofExcept, bind, Run.bind])
  | ok r =>
    rw [Run.outcome_ofExcept_bind hr, Run.outcome_emit_bind] at h
    exact List.mem_append_right _ (finish_mem_secondPhaseStages h)

theorem secondPhase_map (h : Cost.IsReading read P) (s : PricedMatching α n m)
    (free : List (Fin n))
    (hresults : ∀ st ∈ secondPhaseStages (cost.mapEntries read) (s.map read) free,
      ∀ z ∈ st.results (cost.mapEntries read), z.Meets P) :
    secondPhaseStages (cost.mapEntries read) (s.map read) free =
        (secondPhaseStages cost s free).map (Stage.map read) ∧
      secondPhase (cost.mapEntries read) (s.map read) free =
        (secondPhase cost s free).map (Event.map read) (PricedMatching.map read) := by
  rw [secondPhaseStages, List.forall_mem_append] at hresults
  obtain ⟨hreduction, hrest⟩ := hresults
  obtain ⟨hstages, hreduce⟩ := PricedMatching.reduceRows_map h s free hreduction
  rw [hreduce] at hrest
  have hnext : ∀ r, s.reduceRows cost free = .ok r → _ := fun r hr =>
    augmentAll_map h r.2 r.1 (by
      rw [hr] at hrest
      exact hrest)
  constructor
  · rw [secondPhaseStages, secondPhaseStages, hstages, hreduce, List.map_append]
    cases hr : s.reduceRows cost free with
    | error e => rfl
    | ok r => exact congrArg _ (hnext r hr).1
  · rw [secondPhase, secondPhase, hreduce]
    refine (Run.map_ofExcept_bind fun r hr => ?_).symm
    simp only [Run.map_emit_bind, (hnext r hr).2]
    rfl

theorem complete_map (h : Cost.IsReading read P)
    (hresults : ∀ st ∈ stages (cost.mapEntries read),
      ∀ z ∈ st.results (cost.mapEntries read), z.Meets P) :
    stages (cost.mapEntries read) = (stages cost).map (Stage.map read) ∧
      complete (cost.mapEntries read) =
        (complete cost).map (Event.map read) (PricedMatching.map read) := by
  rw [stages, List.forall_mem_append, ← PricedMatching.initial_map h] at hresults
  obtain ⟨hreduction, hrest⟩ := hresults
  obtain ⟨hstages, hreduce⟩ := PricedMatching.reduceRows_map h _ _ hreduction
  rw [hreduce] at hrest
  have hnext : ∀ r, PricedMatching.initial.reduceRows cost (List.finRange n) = .ok r → _ :=
    fun r hr => secondPhase_map h r.1 r.2 (by
      rw [hr] at hrest
      exact hrest)
  constructor
  · rw [stages, stages, ← PricedMatching.initial_map h, hstages, hreduce, List.map_append]
    cases hr : PricedMatching.initial.reduceRows cost (List.finRange n) with
    | error e => rfl
    | ok r => exact congrArg _ (hnext r hr).1
  · rw [complete_eq, complete_eq, ← PricedMatching.initial_map h, hreduce]
    refine (Run.map_ofExcept_bind fun r hr => ?_).symm
    simp only [Run.map_emit_bind, (hnext r hr).2]
    rfl

theorem rowPotential_map (h : Cost.IsReading read P)
    (hresults : ∀ x ∈ (Stage.finish (p.map read)).results (cost.mapEntries read), x.Meets P)
    (i : Fin n) :
    rowPotential (cost.mapEntries read) (p.map read) i = read (rowPotential cost p i) := by
  rw [Stage.forall_results_finish] at hresults
  have hi := hresults i
  simp only [rowPotential, PricedMatching.map, getElem_mapEntries_row, getElem_map_fin] at hi ⊢
  cases hj : p.columnOf[i] with
  | none => exact h.zero.symm
  | some j => exact (h.sub (hi j hj)).symm

/-- The run reports the same, ends with the same matching and reads the exact potentials. -/
theorem solveWide_map (h : Cost.IsReading read P)
    (hresults : ∀ st ∈ stages (cost.mapEntries read),
      ∀ z ∈ st.results (cost.mapEntries read), z.Meets P) :
    solveWide (cost.mapEntries read) =
      (solveWide cost).map (Event.map read) (DualMatching.map read) := by
  have hcomplete := (complete_map h hresults).2
  unfold solveWide
  rw [hcomplete]
  refine (Run.map_bind fun p hp => ?_).symm
  have hfinish := rowPotential_map h (hresults _ (finish_mem_stages (t := p.map read) (by
    rw [hcomplete, Run.map, hp]
    rfl)))
  have hrows : Vector.ofFn (rowPotential (cost.mapEntries read) (p.map read)) =
      (Vector.ofFn (rowPotential cost p)).map read := by
    apply ext_fin
    intro i
    rw [getElem_ofFn_fin, getElem_map_fin, getElem_ofFn_fin, hfinish]
  rw [hrows]
  rfl

namespace Stage

variable {s : ColumnSearch α n m} {j : Fin m}

theorem results_bid_map (h : Cost.IsReading read P)
    (hresults : ∀ x ∈ (bid (p.map read) i).results (cost.mapEntries read), x.Meets P) :
    (bid (p.map read) i).results (cost.mapEntries read) = ((bid p i).results cost).map read := by
  obtain ⟨hreduced, hbid⟩ := forall_results_bid.mp hresults
  rw [getElem_mapEntries_row] at hreduced hbid
  have hofRow : Bid.ofRow (cost[i].map read) (p.price.map read) p.isFree = _ :=
    Bid.ofRow_map h p.isFree hreduced
  have hvalues : Bid.reduced (cost[i].map read) (p.price.map read) = _ :=
    Bid.reduced_map h hreduced
  simp only [results, getElem_mapEntries_row, PricedMatching.map, hvalues, hofRow, List.map_append,
    Vector.toList_map]
  congr 1
  cases hb : Bid.ofRow cost[i] p.price p.isFree with
  | error e => rfl
  | ok b =>
    rw [hb] at hofRow
    obtain ⟨hoffer, hlowered⟩ := hbid (b.map read) hofRow
    have hlowered := PricedMatching.lowered_map h hoffer hlowered
    simp only [Except.map, List.map_cons, List.map_nil]
    rw [h.sub hoffer, ← hlowered]
    rfl

theorem results_start_map (h : Cost.IsReading read P)
    (hresults : ∀ x ∈ (start (p.map read) i).results (cost.mapEntries read), x.Meets P) :
    (start (p.map read) i).results (cost.mapEntries read) =
      ((start p i).results cost).map read := by
  rw [forall_results_start, getElem_mapEntries_row] at hresults
  have hvalues : Bid.reduced (cost[i].map read) (p.price.map read) = _ :=
    Bid.reduced_map h hresults
  simp only [results, getElem_mapEntries_row, PricedMatching.map, hvalues, Vector.toList_map]

theorem results_scan_map (h : Cost.IsReading read P)
    (hresults : ∀ x ∈ (scan (p.map read) (s.map read) i j).results (cost.mapEntries read),
      x.Meets P) :
    (scan (p.map read) (s.map read) i j).results (cost.mapEntries read) =
      ((scan p s i j).results cost).map read := by
  obtain ⟨hcost, hbase, hways⟩ := ColumnSearch.scan_map h hresults
  simp only [results, getElem_mapEntries_row, PricedMatching.map, ColumnSearch.map, Labels.map,
    getElem_map_fin, hcost, hbase, List.map_append, List.map_cons, List.map_nil, List.map_flatMap]
  congr 1
  apply List.flatMap_congr
  intro k hk
  obtain ⟨hreduced, hway⟩ := hways k (ColumnOrder.mem_positionsFrom.mp hk)
  rw [hreduced, hway]

theorem results_finish_map (h : Cost.IsReading read P)
    (hresults : ∀ x ∈ (finish (p.map read)).results (cost.mapEntries read), x.Meets P) :
    (finish (p.map read)).results (cost.mapEntries read) = ((finish p).results cost).map read := by
  rw [forall_results_finish] at hresults
  simp only [results, getElem_mapEntries_row, PricedMatching.map, getElem_map_fin,
    List.map_filterMap] at hresults ⊢
  apply List.filterMap_congr
  intro i _
  rw [Option.map_map]
  apply Option.map_congr
  intro j hj
  exact (h.sub (hresults i j hj)).symm

/-- What is calculated at a stage reads as what is calculated there exactly. -/
theorem results_map (h : Cost.IsReading read P) (st : Stage α n m)
    (hresults : ∀ x ∈ (st.map read).results (cost.mapEntries read), x.Meets P) :
    (st.map read).results (cost.mapEntries read) = (st.results cost).map read := by
  cases st with
  | bid p i => exact results_bid_map h hresults
  | start p i => exact results_start_map h hresults
  | scan p s i j => exact results_scan_map h hresults
  | concede p s => exact (ColumnSearch.concessions_map h _ p.price hresults).1
  | finish p => exact results_finish_map h hresults

end Stage

end Dense

end LinearAssignment
