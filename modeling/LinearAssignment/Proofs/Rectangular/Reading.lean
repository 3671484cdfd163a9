import LinearAssignment.Proofs.Reading
import LinearAssignment.Proofs.Rectangular.Stages

/-! The rectangular solver in an arithmetic that can be read as exact: if the exact results of a
run can all be represented, the run comes to the same stages, calculates these results and ends
alike. -/
namespace LinearAssignment

section map

variable {α β : Type} {n m : ℕ}

def PathSearch.map (g : α → β) (s : PathSearch α n m) : PathSearch β n m :=
  ⟨s.reachedBy, s.distance.map g, s.scannedRows, s.scannedColumns, s.unscanned⟩

def Sink.map (g : α → β) (s : Sink α m) : Sink β m := ⟨s.column, g s.length⟩

def PathSearch.Round.map (g : α → β) : PathSearch.Round α n m → PathSearch.Round β n m
  | .unreachable s => .unreachable (s.map g)
  | .reached s sink => .reached (s.map g) (sink.map g)
  | .passed s minimum i => .passed (s.map g) (g minimum) i

def Rectangular.Progress.map (g : α → β) (p : Rectangular.Progress α n m) :
    Rectangular.Progress β n m :=
  ⟨p.toDualMatching.map g, p.reachedBy⟩

def Rectangular.Stage.map (g : α → β) : Rectangular.Stage α n m → Rectangular.Stage β n m
  | .visit p s minimum i => .visit (p.map g) (s.map g) (g minimum) i
  | .advance p s root length => .advance (p.map g) (s.map g) root (g length)

def Rectangular.Event.map (g : α → β) : Rectangular.Event α → Rectangular.Event β
  | .augment row sink length => .augment row sink (g length)
  | .infeasible row => .infeasible row
  | .invalid => .invalid
  | .done matched => .done matched

end map

variable {α : Type} [Cost α] {bound : ℚ} {bids n m : ℕ} {read : α → Exact bound bids}
  {P : ℚ → Prop} {cost : CostMatrix α n m} {p : Rectangular.Progress α n m} {i root : Fin n}
  {minimum length : α}

namespace PathSearch

variable {s t : PathSearch α n m}

theorem start_map (h : Cost.IsReading read P) (reachedBy : Vector (Option (Fin n)) m) :
    (start reachedBy : PathSearch α n m).map read = start reachedBy := by
  rw [start, start, map, Vector.map_replicate, h.infinity]

/-- What is calculated on a visit reads as what is calculated there exactly. -/
theorem ways_map (h : Cost.IsReading read P)
    (hresults : ∀ x ∈ (Rectangular.Stage.visit (p.map read) (s.map read) (read minimum) i).results
      (cost.mapEntries read), x.Meets P) {j : Fin m} (hj : s.unscanned.Lists j) :
    read minimum + read cost[i][j] = read (minimum + cost[i][j]) ∧
      read (minimum + cost[i][j]) - read p.rowPotential[i] =
        read (minimum + cost[i][j] - p.rowPotential[i]) ∧
      way (cost.mapEntries read) (p.map read).rowPotential (p.map read).columnPotential
        (read minimum) i j = read (way cost p.rowPotential p.columnPotential minimum i j) := by
  obtain ⟨hsum, hrow, hway⟩ := Rectangular.Stage.forall_results_visit.mp hresults j hj
  simp only [way, getElem_mapEntries_row, Rectangular.Progress.map, DualMatching.map,
    getElem_map_fin] at hsum hrow hway ⊢
  rw [← h.add hsum] at hrow hway ⊢
  rw [← h.sub hrow] at hway ⊢
  exact ⟨rfl, rfl, (h.sub hway).symm⟩

omit [Cost α] in
theorem foldl_reach_map {way : Fin m → α} {way' : Fin m → Exact bound bids} (i : Fin n)
    (js : List (Fin m)) (hway : ∀ j ∈ js, way' j = read (way j)) (s : PathSearch α n m) :
    js.foldl (reach way' i) (s.map read) = (js.foldl (reach way i) s).map read := by
  induction js generalizing s with
  | nil => rfl
  | cons j js ih =>
    obtain ⟨hj, hjs⟩ := List.forall_mem_cons.mp hway
    have hreach : reach way' i (s.map read) j = (reach way i s j).map read := by
      simp only [reach, map, map_setIfInBounds, hj]
    rw [List.foldl_cons, List.foldl_cons, hreach, ih hjs]

theorem visit_map (h : Cost.IsReading read P)
    (hresults : ∀ x ∈ (Rectangular.Stage.visit (p.map read) (s.map read) (read minimum) i).results
      (cost.mapEntries read), x.Meets P) :
    (s.map read).visit (cost.mapEntries read) (p.map read).rowPotential
        (p.map read).columnPotential (read minimum) i =
      (s.visit cost p.rowPotential p.columnPotential minimum i).map read := by
  have hway : ∀ j ∈ s.unscanned.columns,
      way (cost.mapEntries read) (p.map read).rowPotential (p.map read).columnPotential
        (read minimum) i j = read (way cost p.rowPotential p.columnPotential minimum i j) :=
    fun j hj => (ways_map h hresults (Unscanned.mem_columns.mp hj)).2.2
  have hnearer : (s.map read).unscanned.columns.filter (fun j =>
      way (cost.mapEntries read) (p.map read).rowPotential (p.map read).columnPotential
        (read minimum) i j < (s.map read).distance[j]) = s.unscanned.columns.filter fun j =>
          way cost p.rowPotential p.columnPotential minimum i j < s.distance[j] := by
    apply List.filter_congr
    intro j hj
    simp only [hway j hj, map, getElem_map_fin, h.lt_iff]
  unfold visit
  simp only [hnearer]
  exact foldl_reach_map i _ (fun j hj => hway j (List.mem_of_mem_filter hj))
    { s with scannedRows := s.scannedRows.setIfInBounds i true }

theorem nearest_map (h : Cost.IsReading read P) (s : PathSearch α n m) (isFree : Fin m → Bool) :
    (s.map read).nearest isFree = s.nearest isFree := by
  simp only [nearest, map, getElem_map_fin, h.firstMinimum?, h.beq_eq]

def roundAfter (held : Matching n m) (s : PathSearch α n m) : Except SearchError (Round α n m) :=
  match s.nearest held.isFree with
  | .error e => .error e
  | .ok k =>
    let j := s.unscanned.order[k]
    let lowest := s.distance[j]
    if lowest == Cost.infinity then .ok (.unreachable s)
    else
      match held.rowOf[j] with
      | none => .ok (.reached (s.scan k) ⟨j, lowest⟩)
      | some i => .ok (.passed (s.scan k) lowest i)

theorem roundAfter_map (h : Cost.IsReading read P) (held : Matching n m) (s : PathSearch α n m) :
    (s.map read).roundAfter held = (s.roundAfter held).map (Round.map read) := by
  unfold roundAfter
  rw [nearest_map h]
  cases s.nearest held.isFree with
  | error e => rfl
  | ok k =>
    simp only [map, getElem_map_fin, ← h.infinity, h.beq_eq]
    split
    · rfl
    · cases held.rowOf[s.unscanned.order[k]] <;> rfl

theorem round_map (h : Cost.IsReading read P)
    (hresults : ∀ x ∈ (Rectangular.Stage.visit (p.map read) (s.map read) (read minimum) i).results
      (cost.mapEntries read), x.Meets P) :
    (s.map read).round (cost.mapEntries read) (p.map read).rowPotential
        (p.map read).columnPotential (p.map read).toMatching (read minimum) i =
      (s.round cost p.rowPotential p.columnPotential p.toMatching minimum i).map
        (Round.map read) := by
  change ((s.map read).visit (cost.mapEntries read) (p.map read).rowPotential
    (p.map read).columnPotential (read minimum) i).roundAfter p.toMatching = _
  rw [visit_map h hresults, roundAfter_map h]
  rfl

theorem advance_mem_stages {sink : Sink α m}
    (h : s.run cost p.rowPotential p.columnPotential p.toMatching minimum i = .ok (t, some sink)) :
    .advance p t root sink.length ∈ s.stages cost p root minimum i := by
  induction hcount : s.unscanned.count using Nat.strong_induction_on
    generalizing s minimum i with
  | _ count ih =>
    rw [run] at h
    split at h
    · simp at h
    · simp at h
    next hround =>
      obtain ⟨rfl, ⟨⟩⟩ := Prod.mk.inj (Except.ok.inj h)
      simp [stages_of_reached hround]
    next hround =>
      rw [stages_of_passed hround]
      exact List.mem_cons_of_mem _ (ih _ (hcount ▸ count_lt_of_round hround) h rfl)

theorem stages_map (h : Cost.IsReading read P) (s : PathSearch α n m) (minimum : α) (i : Fin n)
    (hresults : ∀ st ∈ (s.map read).stages (cost.mapEntries read) (p.map read) root
      (read minimum) i, ∀ z ∈ st.results (cost.mapEntries read), z.Meets P) :
    (s.map read).stages (cost.mapEntries read) (p.map read) root (read minimum) i =
        (s.stages cost p root minimum i).map (Rectangular.Stage.map read) ∧
      (s.map read).run (cost.mapEntries read) (p.map read).rowPotential
          (p.map read).columnPotential (p.map read).toMatching (read minimum) i =
        (s.run cost p.rowPotential p.columnPotential p.toMatching minimum i).map
          fun r => (r.1.map read, r.2.map (Sink.map read)) := by
  -- Induction on the number of columns that have not been scanned.
  induction hcount : s.unscanned.count using Nat.strong_induction_on
    generalizing s minimum i with
  | _ count ih =>
    have hfirst : ∀ z ∈ (Rectangular.Stage.visit (p.map read) (s.map read) (read minimum) i).results
        (cost.mapEntries read), z.Meets P := by
      rw [stages, List.forall_mem_cons] at hresults
      exact hresults.1
    have hround := round_map h hfirst
    cases hr : s.round cost p.rowPotential p.columnPotential p.toMatching minimum i with
    | error e =>
      rw [hr] at hround
      exact ⟨by rw [stages_of_error hround, stages_of_error hr]; rfl,
        by rw [run, hround, run, hr]; rfl⟩
    | ok r =>
      rw [hr] at hround
      cases r with
      | unreachable t =>
        exact ⟨by rw [stages_of_unreachable hround, stages_of_unreachable hr]; rfl,
          by rw [run, hround, run, hr]; rfl⟩
      | reached t sink =>
        exact ⟨by rw [stages_of_reached hround, stages_of_reached hr]; rfl,
          by rw [run, hround, run, hr]; rfl⟩
      | passed t lowest i' =>
        rw [stages_of_passed hround, List.forall_mem_cons] at hresults
        obtain ⟨hstages, hrun⟩ :=
          ih _ (hcount ▸ count_lt_of_round hr) t lowest i' hresults.2 rfl
        constructor
        · rw [stages_of_passed hround, stages_of_passed hr, hstages, List.map_cons]
          rfl
        · rw [run, hround, run, hr]
          exact hrun

end PathSearch

namespace Rectangular

namespace Progress

theorem initial_map (h : Cost.IsReading read P) :
    (initial : Progress α n m).map read = initial := by
  simp only [initial, map, DualMatching.map, DualMatching.trivial, Vector.map_replicate, h.zero]

theorem search_map (h : Cost.IsReading read P)
    (hresults : ∀ st ∈ (p.map read).searchStages (cost.mapEntries read) i,
      ∀ z ∈ st.results (cost.mapEntries read), z.Meets P) :
    (p.map read).searchStages (cost.mapEntries read) i =
        (p.searchStages cost i).map (Stage.map read) ∧
      (p.map read).search (cost.mapEntries read) i =
        (p.search cost i).map fun r => (r.1.map read, r.2.map (Sink.map read)) := by
  unfold searchStages search at *
  rw [← PathSearch.start_map h (p.map read).reachedBy, ← h.zero] at *
  exact PathSearch.stages_map h _ _ _ hresults

variable {s : PathSearch α n m} {length : α}

/-- What is calculated when the potentials change reads as what is calculated there exactly. -/
theorem changes_map (h : Cost.IsReading read P)
    (hresults : ∀ x ∈ (Stage.advance (p.map read) (s.map read) root (read length)).results
      (cost.mapEntries read), x.Meets P) :
    read p.rowPotential[root] + read length = read (p.rowPotential[root] + length) ∧
      (∀ (i : Fin n) (j : Fin m), i ≠ root → s.scannedRows[i] = true → p.columnOf[i] = some j →
        read length - read s.distance[j] = read (length - s.distance[j]) ∧
          read p.rowPotential[i] + read (length - s.distance[j]) =
            read (p.rowPotential[i] + (length - s.distance[j]))) ∧
      ∀ j : Fin m, s.scannedColumns[j] = true →
        read length - read s.distance[j] = read (length - s.distance[j]) ∧
          read p.columnPotential[j] - read (length - s.distance[j]) =
            read (p.columnPotential[j] - (length - s.distance[j])) := by
  obtain ⟨hroot, hrows, hcolumns⟩ := Stage.forall_results_advance.mp hresults
  simp only [map, DualMatching.map, PathSearch.map, getElem_map_fin] at hroot hrows hcolumns
  refine ⟨(h.add hroot).symm, fun i j hne hi hj => ?_, fun j hj => ?_⟩
  · obtain ⟨hbeyond, hrow⟩ := hrows i j hne hi hj
    rw [← h.sub hbeyond] at hrow ⊢
    exact ⟨rfl, (h.add hrow).symm⟩
  · obtain ⟨hbeyond, hcolumn⟩ := hcolumns j hj
    rw [← h.sub hbeyond] at hcolumn ⊢
    exact ⟨rfl, (h.sub hcolumn).symm⟩

theorem advance_map (h : Cost.IsReading read P) {sink : Sink α m}
    (hresults : ∀ x ∈ (Stage.advance (p.map read) (s.map read) root (read sink.length)).results
      (cost.mapEntries read), x.Meets P) :
    (p.map read).advance (s.map read) root (sink.map read) =
      (p.advance s root sink).map read := by
  obtain ⟨hroot, hrows, hcolumns⟩ := changes_map h hresults
  have hraised : Vector.ofFn ((p.map read).raisedRow (s.map read) root (read sink.length)) =
      (Vector.ofFn (p.raisedRow s root sink.length)).map read := by
    apply ext_fin
    intro i
    simp only [getElem_ofFn_fin, getElem_map_fin, raisedRow, map, DualMatching.map,
      PathSearch.map]
    split
    next hi => rw [hi, hroot]
    next hne =>
      split
      next hi =>
        cases hj : p.columnOf[i] with
        | none => rfl
        | some j =>
          obtain ⟨hbeyond, hrow⟩ := hrows i j hne hi hj
          simp only [hbeyond, hrow]
      next => rfl
  have hlowered : Vector.ofFn ((p.map read).loweredColumn (s.map read) (read sink.length)) =
      (Vector.ofFn (p.loweredColumn s sink.length)).map read := by
    apply ext_fin
    intro j
    simp only [getElem_ofFn_fin, getElem_map_fin, loweredColumn, map, DualMatching.map,
      PathSearch.map]
    split
    next hj =>
      obtain ⟨hbeyond, hcolumn⟩ := hcolumns j hj
      rw [hbeyond, hcolumn]
    next => rfl
  change (⟨⟨_, Vector.ofFn ((p.map read).raisedRow (s.map read) root (read sink.length)),
    Vector.ofFn ((p.map read).loweredColumn (s.map read) (read sink.length))⟩, _⟩ :
      Progress (Exact bound bids) n m) = _
  rw [hraised, hlowered]
  rfl

theorem matchRows_map (h : Cost.IsReading read P) (rows : List (Fin n)) (p : Progress α n m)
    (hresults : ∀ st ∈ matchStages (cost.mapEntries read) rows (p.map read),
      ∀ z ∈ st.results (cost.mapEntries read), z.Meets P) :
    matchStages (cost.mapEntries read) rows (p.map read) =
        (matchStages cost rows p).map (Stage.map read) ∧
      matchRows (cost.mapEntries read) rows (p.map read) =
        (matchRows cost rows p).map (Event.map read) (Option.map (DualMatching.map read)) := by
  induction rows generalizing p with
  | nil => exact ⟨rfl, rfl⟩
  | cons i rows ih =>
    rw [matchStages, List.forall_mem_append] at hresults
    obtain ⟨hrow, hrest⟩ := hresults
    obtain ⟨hstages, hsearch⟩ := search_map h hrow
    have hadvance : ∀ s sink, p.search cost i = .ok (s, some sink) →
        (p.map read).advance (s.map read) i (sink.map read) = (p.advance s i sink).map read := by
      intro s sink hs
      rw [hs] at hsearch
      exact advance_map h (hrow _ (PathSearch.advance_mem_stages hsearch))
    have hnext : ∀ s sink, p.search cost i = .ok (s, some sink) → _ := fun s sink hs =>
      ih (p.advance s i sink) (by
        rw [hsearch, hs] at hrest
        rw [← hadvance s sink hs]
        exact hrest)
    constructor
    · rw [matchStages, matchStages, hstages, hsearch, List.map_append]
      cases hs : p.search cost i with
      | error e => rfl
      | ok r =>
        obtain ⟨s, _ | sink⟩ := r
        · rfl
        · simp only [Except.map, Option.map_some, hadvance s sink hs, (hnext s sink hs).1]
    · rw [matchRows, matchRows, hsearch]
      refine (Run.map_ofExcept_bind fun r hr => ?_).symm
      obtain ⟨s, _ | sink⟩ := r
      · rfl
      · simp only [Option.map_some, Run.map_emit_bind, hadvance s sink hr, (hnext s sink hr).2]
        rfl

end Progress

theorem Stage.results_map (h : Cost.IsReading read P) (st : Stage α n m)
    (hresults : ∀ x ∈ (st.map read).results (cost.mapEntries read), x.Meets P) :
    (st.map read).results (cost.mapEntries read) = (st.results cost).map read := by
  cases st with
  | visit p s minimum i =>
    have hways := fun j => PathSearch.ways_map (j := j) h hresults
    simp only [map, results, List.map_flatMap]
    apply List.flatMap_congr
    intro j hj
    obtain ⟨hsum, hrow, hway⟩ := hways j (Unscanned.mem_columns.mp hj)
    simp only [getElem_mapEntries_row, Progress.map, DualMatching.map, getElem_map_fin] at hway ⊢
    simp only [hsum, hrow, hway, List.map_cons, List.map_nil]
  | advance p s root length =>
    obtain ⟨hroot, hrows, hcolumns⟩ := Progress.changes_map h hresults
    simp only [map, results, Progress.map, DualMatching.map, PathSearch.map, getElem_map_fin, hroot,
      List.map_append, List.map_cons, List.map_nil, List.map_flatMap]
    congr 1
    · congr 1
      apply List.flatMap_congr
      intro i hi
      apply List.flatMap_congr
      intro j hj
      obtain ⟨hne, hscanned⟩ := of_decide_eq_true (List.mem_filter.mp hi).2
      obtain ⟨hbeyond, hrow⟩ := hrows i j hne hscanned (Option.mem_toList.mp hj)
      rw [hbeyond, hrow]
    · apply List.flatMap_congr
      intro j hj
      obtain ⟨hbeyond, hcolumn⟩ := hcolumns j (List.mem_filter.mp hj).2
      rw [hbeyond, hcolumn]

/-- The run reports the same, ends with the same matching and reads the exact potentials. -/
theorem solveWide_map (h : Cost.IsReading read P)
    (hresults : ∀ st ∈ stages (cost.mapEntries read),
      ∀ z ∈ st.results (cost.mapEntries read), z.Meets P) :
    stages (cost.mapEntries read) = (stages cost).map (Stage.map read) ∧
      solveWide (cost.mapEntries read) =
        (solveWide cost).map (Event.map read) (Option.map (DualMatching.map read)) := by
  unfold stages solveWide at *
  rw [← Progress.initial_map h] at *
  exact Progress.matchRows_map h _ _ hresults

end Rectangular

end LinearAssignment
