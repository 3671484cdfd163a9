import LinearAssignment.Proofs.CompleteMatching
import LinearAssignment.Proofs.Rectangular.Completion
import LinearAssignment.Proofs.Restoration
import LinearAssignment.Rectangular.Solver
import Mathlib.Algebra.BigOperators.Group.Finset.Basic
import Mathlib.Data.List.FinRange

/-! What the rectangular solver returns for a matrix of any shape in exact arithmetic: its status
tells exactly whether there is an assignment, and its pairs are an optimal one. -/
namespace LinearAssignment.Rectangular

section pairs

variable {α : Type} {n m : ℕ}

structure Solution.Lists (s : Solution α n m) (ps : List (Fin n × Fin m)) : Prop where
  pairs_eq : s.pairs = ps.map fun p => (p.1.val, p.2.val)
  sorted : (ps.map Prod.fst).Pairwise (· < ·)

theorem Solution.Lists.nodup {s : Solution α n m} {ps : List (Fin n × Fin m)}
    (h : s.Lists ps) : ps.Nodup :=
  List.Nodup.of_map Prod.fst (h.sorted.imp fun hlt => hlt.ne)

theorem columns_eq_ofFn {s : Matching n m} {f : Fin n → Fin m}
    (hf : ∀ i : Fin n, s.columnOf[i] = some (f i)) : s.columns = List.ofFn fun i => (f i).val := by
  have hvec : s.columnOf = Vector.ofFn fun i => some (f i) :=
    ext_fin fun i => by rw [hf, getElem_ofFn_fin]
  rw [Matching.columns, hvec, Vector.toList_ofFn, List.ofFn_eq_map, List.filterMap_map,
    List.ofFn_eq_map]
  simp

theorem zipIdx_columns {s : Matching n m} {f : Fin n → Fin m}
    (hf : ∀ i : Fin n, s.columnOf[i] = some (f i)) :
    (s.columns.zipIdx.map fun (j, i) => ((i : ℕ), j)) =
      (List.finRange n).map fun i => (i.val, (f i).val) := by
  rw [columns_eq_ofFn hf]
  apply List.ext_getElem <;> simp

theorem lists_ofUpright {s : DualMatching α n m} (h : s.IsComplete) :
    ∃ ps, (Solution.ofUpright s).Lists ps ∧ ps.toFinset = s.pairs := by
  obtain ⟨f, hinj, hf⟩ := h.exists_columns
  refine ⟨(List.finRange n).map fun i => (i, f i), ⟨?_, ?_⟩, ?_⟩
  · rw [List.map_map]
    exact zipIdx_columns hf
  · simp [List.map_map, Function.comp_def, List.pairwise_lt_finRange]
  · ext ⟨i, j⟩
    simp [Matching.mem_pairs, hf]

theorem lists_ofTransposed {s : DualMatching α m n} (h : s.IsComplete) :
    ∃ ps, (Solution.ofTransposed s).Lists ps ∧ ps.toFinset = s.pairs.image Prod.swap := by
  obtain ⟨f, hinj, hf⟩ := h.exists_columns
  let qs := (List.finRange m).map fun j => (f j, j)
  let ps := qs.mergeSort fun p q => p.1 ≤ q.1
  have hperm : ps.Perm qs := List.mergeSort_perm _ _
  have hnodup : (qs.map Prod.fst).Nodup := by
    rw [List.map_map]
    exact (List.nodup_finRange m).map hinj
  refine ⟨ps, ⟨?_, ?_⟩, ?_⟩
  · change List.mergeSort ((s.columns.zipIdx.map fun (j, i) => ((i : ℕ), j)).map Prod.swap) _ = _
    rw [zipIdx_columns hf, List.map_map, List.map_mergeSort (s := fun p q => decide (p.1 ≤ q.1)) ,
      List.map_map]
    · rfl
    · intro a _ b _
      rfl
  · exact NormalForm.pairwise_lt_mergeSort hnodup
  · ext ⟨i, j⟩
    rw [List.mem_toFinset, hperm.mem_iff]
    simp [qs, Matching.mem_pairs, hf, eq_comm]

end pairs

section checked

variable {α : Type} [Cost α] {n m : ℕ} {cost : CostMatrix α n m}

theorem solveChecked_outcome_of_invalid (h : cost.hasInvalidEntry = true) :
    (solveChecked cost).outcome = .ok .invalid := by
  rw [solveChecked, if_pos h, Run.outcome_emit_bind, Run.outcome_pure]

theorem solveChecked_outcome {r : Option (DualMatching α n m)}
    (hvalid : cost.hasInvalidEntry = false) (hr : (solveWide cost).outcome = .ok r) :
    (solveChecked cost).outcome = .ok (r.elim .infeasible .solved) := by
  rw [solveChecked, if_neg (by rw [hvalid]; exact Bool.false_ne_true), Run.outcome_bind hr]
  cases r <;> rfl

theorem solveNormal_outcome_of_invalid (cost : CostMatrix α n m) (maximize : Bool)
    (h : (cost.objective maximize).hasInvalidEntry = true) :
    (solveNormal (cost.normalize maximize)).outcome = .ok .invalid := by
  by_cases hnm : n ≤ m
  · rw [CostMatrix.normalize_of_le _ _ hnm, solveNormal]
    exact Run.outcome_bind (solveChecked_outcome_of_invalid h) _
  · rw [CostMatrix.normalize_of_lt _ _ (Nat.lt_of_not_le hnm), solveNormal]
    refine Run.outcome_bind (solveChecked_outcome_of_invalid ?_) _
    rw [CostMatrix.hasInvalidEntry_transpose, h]

theorem solve_outcome_eq (cost : CostMatrix α n m) (maximize : Bool) (h : min n m ≠ 0) :
    (solve cost maximize).outcome = (solveNormal (cost.normalize maximize)).outcome := by
  rw [solve, if_neg h]
  cases hverdict : (solveNormal (cost.normalize maximize)).outcome with
  | error e => exact Run.outcome_bind_error hverdict _
  | ok verdict =>
    rw [Run.outcome_bind hverdict]
    cases verdict <;> rfl

end checked

variable {bound : ℚ} {bids n m : ℕ}

structure Solution.IsOptimal (cost : CostMatrix (Exact bound bids) n m)
    (s : Solution (Exact bound bids) n m) (ps : List (Fin n × Fin m)) (u : Fin n → ℚ)
    (v : Fin m → ℚ) : Prop where
  lists : s.Lists ps
  isAssignment : cost.IsAssignment ps.toFinset
  row : ∀ i : Fin n, s.rowPotential[i] = .number (u i)
  column : ∀ j : Fin m, s.columnPotential[j] = .number (v j)
  certified : cost.IsCertified ps.toFinset u v

/-- A matrix without an invalid entry either has a complete matching that potentials support, or
no assignment. -/
theorem solveWide_outcome {cost : CostMatrix (Exact bound bids) n m} (hnm : n ≤ m)
    (hvalid : cost.hasInvalidEntry = false) :
    (∃ s u v, (solveWide cost).outcome = .ok (some s) ∧ s.IsComplete ∧
        Progress.IsSound cost (fun i j => cost[i][j].toTop) u v s) ∨
      (solveWide cost).outcome = .ok none ∧ ¬ ∃ P, cost.IsAssignment P := by
  have hc := CostMatrix.ofTop_toTop_of_valid hvalid
  rcases Progress.matchRows_outcome (List.finRange n) .initial _ _ (Progress.isSound_initial hc)
    (fun r => iff_of_false (Matching.not_isMatched_empty r) (by simp))
    (List.nodup_finRange n) hnm with
    ⟨s, u, v, hs, hsound, hall⟩ | ⟨hs, hnone⟩
  · exact .inl ⟨s, u, v, hs, ⟨hsound.consistent, hall⟩, hsound⟩
  · refine .inr ⟨hs, fun ⟨P, hP⟩ => ?_⟩
    obtain ⟨f, hf, hfinite⟩ := hP.exists_columns hnm
    obtain ⟨r, hr⟩ := hnone f hf
    have hr' := hfinite r
    rw [hc, Exact.isFinite_ofTop] at hr'
    exact hr' hr

theorem isOptimal_ofUpright {cost : CostMatrix (Exact bound bids) n m}
    {s : DualMatching (Exact bound bids) n m} {c : Fin n → Fin m → WithTop ℚ} {u : Fin n → ℚ}
    {v : Fin m → ℚ} (hnm : n ≤ m) (hs : s.IsComplete) (h : Progress.IsSound cost c u v s) :
    ∃ ps, (Solution.ofUpright s).IsOptimal cost ps u v := by
  obtain ⟨ps, hlists, hps⟩ := lists_ofUpright hs
  refine ⟨ps, hlists, ?_, h.reads.row, h.reads.column, ?_⟩
  · exact hps ▸ hs.isAssignment hnm h.reads.cost h.supported
  · exact hps ▸ hs.isCertified hnm h.reads.cost h.supported h.freeAtZero

theorem isOptimal_ofTransposed {cost : CostMatrix (Exact bound bids) n m}
    {s : DualMatching (Exact bound bids) m n} {c : Fin m → Fin n → WithTop ℚ} {u : Fin m → ℚ}
    {v : Fin n → ℚ} (hmn : m < n) (hs : s.IsComplete)
    (h : Progress.IsSound cost.transpose c u v s) :
    ∃ ps, (Solution.ofTransposed s : Solution _ n m).IsOptimal cost ps v u := by
  obtain ⟨ps, hlists, hps⟩ := lists_ofTransposed hs
  refine ⟨ps, hlists, ?_, h.reads.column, h.reads.row, ?_⟩
  · exact hps ▸ (hs.isAssignment hmn.le h.reads.cost h.supported).of_transpose
  · exact hps ▸ (hs.isCertified hmn.le h.reads.cost h.supported h.freeAtZero).of_transpose hmn

/-- The normal form of a valid matrix is solved optimally or has no assignment. -/
theorem solveNormal_outcome (cost : CostMatrix (Exact bound bids) n m) (maximize : Bool)
    (hvalid : (cost.objective maximize).hasInvalidEntry = false) :
    (∃ s ps u v, (solveNormal (cost.normalize maximize)).outcome = .ok (.solved s) ∧
        s.IsOptimal (cost.objective maximize) ps u v) ∨
      (solveNormal (cost.normalize maximize)).outcome = .ok .infeasible ∧
        ¬ ∃ P, (cost.objective maximize).IsAssignment P := by
  by_cases hnm : n ≤ m
  · rw [CostMatrix.normalize_of_le _ _ hnm, solveNormal]
    rcases solveWide_outcome hnm hvalid with ⟨s, u, v, hs, hcomplete, hsound⟩ | ⟨hs, hnone⟩
    · obtain ⟨ps, hps⟩ := isOptimal_ofUpright hnm hcomplete hsound
      refine .inl ⟨.ofUpright s, ps, u, v, ?_, hps⟩
      rw [Run.outcome_bind (solveChecked_outcome hvalid hs)]
      rfl
    · refine .inr ⟨?_, hnone⟩
      rw [Run.outcome_bind (solveChecked_outcome hvalid hs)]
      rfl
  · have hmn : m < n := Nat.lt_of_not_le hnm
    have hvalid' : (cost.objective maximize).transpose.hasInvalidEntry = false := by
      rw [CostMatrix.hasInvalidEntry_transpose, hvalid]
    rw [CostMatrix.normalize_of_lt _ _ hmn, solveNormal]
    rcases solveWide_outcome hmn.le hvalid' with ⟨s, u, v, hs, hcomplete, hsound⟩ | ⟨hs, hnone⟩
    · obtain ⟨ps, hps⟩ := isOptimal_ofTransposed hmn hcomplete hsound
      refine .inl ⟨.ofTransposed s, ps, v, u, ?_, hps⟩
      rw [Run.outcome_bind (solveChecked_outcome hvalid' hs)]
      rfl
    · refine .inr ⟨?_, fun ⟨P, hP⟩ => hnone ⟨_, hP.transpose⟩⟩
      rw [Run.outcome_bind (solveChecked_outcome hvalid' hs)]
      rfl

/-- A matrix without rows or columns has the empty assignment, which zero potentials certify. -/
theorem isOptimal_empty (cost : CostMatrix (Exact bound bids) n m) (h : min n m = 0) :
    Solution.IsOptimal cost ⟨[], Vector.replicate n 0, Vector.replicate m 0⟩ []
      (fun _ => 0) fun _ => 0 where
  lists := ⟨rfl, List.Pairwise.nil⟩
  isAssignment := CostMatrix.isAssignment_empty h
  row := getElem_replicate_fin _
  column := getElem_replicate_fin _
  certified := CostMatrix.isCertified_empty h

/-- The three ways in which a solve can end, and when. -/
theorem solve_cases (cost : CostMatrix (Exact bound bids) n m) (maximize : Bool) :
    ((solve cost maximize).outcome = .ok .invalid ∧ 0 < min n m ∧
        (cost.objective maximize).hasInvalidEntry = true) ∨
      (¬ (0 < min n m ∧ (cost.objective maximize).hasInvalidEntry = true) ∧
        (((solve cost maximize).outcome = .ok .infeasible ∧
            ¬ ∃ P, (cost.objective maximize).IsAssignment P) ∨
          ∃ s ps u v, (solve cost maximize).outcome = .ok (.solved s) ∧
            s.IsOptimal (cost.objective maximize) ps u v)) := by
  by_cases hmin : min n m = 0
  · refine .inr ⟨fun h => h.1.ne' hmin, .inr ⟨_, _, _, _, ?_, isOptimal_empty _ hmin⟩⟩
    rw [solve, if_pos hmin, Run.outcome_pure]
  · rw [solve_outcome_eq _ _ hmin]
    rcases hvalid : (cost.objective maximize).hasInvalidEntry with _ | _
    · refine .inr ⟨fun h => Bool.false_ne_true h.2, ?_⟩
      rcases solveNormal_outcome cost maximize hvalid with ⟨s, ps, u, v, hs, hps⟩ | ⟨hs, hnone⟩
      · exact .inr ⟨s, ps, u, v, hs, hps⟩
      · exact .inl ⟨hs, hnone⟩
    · have hs := solveNormal_outcome_of_invalid cost maximize hvalid
      exact .inl ⟨hs, Nat.pos_of_ne_zero hmin, rfl⟩

theorem isOptimal_of_solved {cost : CostMatrix (Exact bound bids) n m} {maximize : Bool}
    {s : Solution (Exact bound bids) n m} (h : (solve cost maximize).outcome = .ok (.solved s)) :
    ∃ ps u v, s.IsOptimal (cost.objective maximize) ps u v := by
  rcases solve_cases cost maximize with
    ⟨hs, -⟩ | ⟨-, ⟨hs, -⟩ | ⟨s', ps, u, v, hs, hps⟩⟩
  · rw [hs] at h
    injection h with h
    nomatch h
  · rw [hs] at h
    injection h with h
    nomatch h
  · rw [hs] at h
    injection h with h
    injection h with h
    exact ⟨ps, u, v, h ▸ hps⟩

/-- The status of a solve says exactly what the matrix is like: invalid if its normal form has an
entry without a place, infeasible if every assignment meets a forbidden pairing. -/
theorem solve_status (cost : CostMatrix (Exact bound bids) n m) (maximize : Bool) :
    ∃ verdict, (solve cost maximize).outcome = .ok verdict ∧
      (verdict.status = .invalid ↔ 0 < min n m ∧ ∃ (i : Fin n) (j : Fin m),
        (cost.objective maximize)[i][j] = .nan ∨ (cost.objective maximize)[i][j] = .infinite true) ∧
      (verdict.status = .infeasible ↔ verdict.status ≠ .invalid ∧
        ¬ ∃ P, (cost.objective maximize).IsAssignment P) ∧
      (verdict.status = .ok ↔ verdict.status ≠ .invalid ∧
        ∃ P, (cost.objective maximize).IsAssignment P) := by
  have hentry : (∃ (i : Fin n) (j : Fin m),
      (cost.objective maximize)[i][j] = .nan ∨ (cost.objective maximize)[i][j] = .infinite true) ↔
      (cost.objective maximize).hasInvalidEntry = true := by
    simp only [CostMatrix.hasInvalidEntry_iff, Exact.isInvalid_iff]
  rw [hentry]
  rcases solve_cases cost maximize with
    ⟨hs, hflawed⟩ | ⟨hnot, ⟨hs, hnone⟩ | ⟨s, ps, u, v, hs, hps⟩⟩
  · refine ⟨.invalid, hs, ?_⟩
    simp only [Verdict.status, hflawed]
    simp
  · refine ⟨.infeasible, hs, ?_⟩
    simp only [Verdict.status, hnot, hnone]
    simp
  · have hsome : ∃ P, (cost.objective maximize).IsAssignment P := ⟨_, hps.isAssignment⟩
    refine ⟨.solved s, hs, ?_⟩
    simp only [Verdict.status, hnot, hsome]
    simp

/-- The pairs of a solution are an optimal assignment in ascending order of their rows. -/
theorem solve_pairs_optimal {cost : CostMatrix (Exact bound bids) n m} {maximize : Bool}
    {s : Solution (Exact bound bids) n m} (h : (solve cost maximize).outcome = .ok (.solved s)) :
    ∃ ps : List (Fin n × Fin m), s.pairs = ps.map (fun p => (p.1.val, p.2.val)) ∧
      (ps.map Prod.fst).Pairwise (· < ·) ∧ (ps.map Prod.snd).Nodup ∧ ps.length = min n m ∧
      (∀ p ∈ ps, ∃ q, cost[p.1][p.2] = .number q) ∧
      ∀ Q, cost.IsAssignment Q →
        if maximize then cost.worth Q ≤ (ps.map fun p => cost[p.1][p.2].value).sum
        else (ps.map fun p => cost[p.1][p.2].value).sum ≤ cost.worth Q := by
  obtain ⟨ps, u, v, hps⟩ := isOptimal_of_solved h
  have hP := CostMatrix.isAssignment_objective.mp hps.isAssignment
  have hnodup := hps.lists.nodup
  have hsum : (ps.map fun p => cost[p.1][p.2].value).sum = cost.worth ps.toFinset := by
    rw [CostMatrix.worth, List.sum_toFinset _ hnodup]
  refine ⟨ps, hps.lists.pairs_eq, hps.lists.sorted, ?_, ?_, fun p hp => ?_, fun Q hQ => ?_⟩
  · refine List.Nodup.map_on (fun p hp q hq he => ?_) hnodup
    exact hP.columns (List.mem_toFinset.mpr hp) (List.mem_toFinset.mpr hq) he
  · rw [← List.toFinset_card_of_nodup hnodup, hP.card]
  · exact Exact.isFinite_iff.mp (hP.finite p (List.mem_toFinset.mpr hp))
  · rw [hsum]
    exact hps.certified.worth_le_objective hps.isAssignment hQ

theorem exists_solution (cost : CostMatrix (Exact bound bids) n m) (maximize : Bool)
    (hvalid : (cost.objective maximize).hasInvalidEntry = false)
    (hsome : ∃ P, (cost.objective maximize).IsAssignment P) :
    ∃ s ps u v, (solve cost maximize).outcome = .ok (.solved s) ∧
      s.IsOptimal (cost.objective maximize) ps u v := by
  rcases solve_cases cost maximize with ⟨-, hflawed⟩ | ⟨-, ⟨-, hnone⟩ | h⟩
  · rw [hvalid] at hflawed
    exact absurd hflawed.2 Bool.false_ne_true
  · exact absurd hsome hnone
  · exact h

/-- The solution of a matrix with a forbidden pairing. -/
theorem solve_contested_pairs_optimal :
    ∃ s, (solve (.contested 100 10) false).outcome = .ok (.solved s) ∧
      ∃ ps : List (Fin 2 × Fin 3), s.pairs = ps.map (fun p => (p.1.val, p.2.val)) ∧
        (ps.map Prod.fst).Pairwise (· < ·) ∧ (ps.map Prod.snd).Nodup ∧ ps.length = 2 ∧
        (∀ p ∈ ps, ∃ q, (CostMatrix.contested 100 10)[p.1][p.2] = .number q) ∧
        (ps.map fun p => (CostMatrix.contested 100 10)[p.1][p.2].value).sum ≤ 3 := by
  obtain ⟨s, -, -, -, hs, -⟩ :=
    exists_solution (.contested 100 10) false CostMatrix.hasInvalidEntry_contested
      ⟨_, CostMatrix.isAssignment_contested⟩
  obtain ⟨ps, hpairs, hrows, hcolumns, hlength, hfinite, hle⟩ := solve_pairs_optimal hs
  refine ⟨s, hs, ps, hpairs, hrows, hcolumns, hlength, hfinite, ?_⟩
  have h := hle _ CostMatrix.isAssignment_contested
  rw [if_neg Bool.false_ne_true] at h
  exact h.trans_eq CostMatrix.worth_contested

end LinearAssignment.Rectangular
