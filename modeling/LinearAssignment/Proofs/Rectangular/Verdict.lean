import LinearAssignment.Proofs.Rectangular.Rounding
import LinearAssignment.Proofs.Rectangular.Solver

/-! How the rectangular solver ends on a matrix of floating-point numbers of any shape. It always
returns a verdict, and only an entry that is not finite can keep it from a solution. -/
namespace LinearAssignment.Rectangular

variable {f : Format} {n m : ℕ} {cost : CostMatrix (Binary f) n m}

/-- A verdict and what it says about the matrix that is minimised. The pairs of a solution are those
of a matching. -/
inductive Concludes (cost : CostMatrix (Binary f) n m) :
    Verdict (Solution (Binary f) n m) → Prop
  | invalid (entry : cost.hasInvalidEntry = true) : Concludes cost .invalid
  | infeasible (entry : ∃ (i : Fin n) (j : Fin m), Cost.isFinite cost[i][j] = false) :
      Concludes cost .infeasible
  | solved {s ps} (lists : s.Lists ps) (columns : (ps.map Prod.snd).Nodup) :
      Concludes cost (.solved s)

theorem Concludes.exists_solution {verdict : Verdict (Solution (Binary f) n m)}
    (h : Concludes cost verdict)
    (hfinite : ∀ (i : Fin n) (j : Fin m), Cost.isFinite cost[i][j] = true) :
    ∃ s, verdict = .solved s := by
  cases h with
  | invalid entry =>
    obtain ⟨i, j, hij⟩ := CostMatrix.hasInvalidEntry_iff.mp entry
    rw [Binary.isInvalid_of_isFinite (hfinite i j)] at hij
    exact absurd hij (by simp)
  | infeasible entry =>
    obtain ⟨i, j, hij⟩ := entry
    rw [hfinite i j] at hij
    exact absurd hij (by simp)
  | solved => exact ⟨_, rfl⟩

theorem nodup_columns {ps : List (Fin n × Fin m)} {S : Finset (Fin n × Fin m)} (hps : ps.Nodup)
    (hS : ps.toFinset = S) (hinj : Set.InjOn Prod.snd (S : Set (Fin n × Fin m))) :
    (ps.map Prod.snd).Nodup := by
  refine hps.map_on fun p hp q hq => hinj ?_ ?_
  · exact Finset.mem_coe.mpr (hS ▸ List.mem_toFinset.mpr hp)
  · exact Finset.mem_coe.mpr (hS ▸ List.mem_toFinset.mpr hq)

/-- A matrix that has no more rows than columns and no invalid entry is solved, unless one of its
entries is not finite. -/
theorem exists_complete_or_none (hnm : n ≤ m) (hvalid : cost.hasInvalidEntry = false) :
    ∃ r, (solveWide cost).outcome = .ok r ∧ (∀ s, r = some s → s.IsComplete) ∧
      (r = none → ∃ (i : Fin n) (j : Fin m), Cost.isFinite cost[i][j] = false) := by
  obtain ⟨r, hr, -, hsome, hnone⟩ := Progress.exists_matches (List.finRange n) .initial
    Progress.isRunning_initial hvalid hnm
    (fun r => iff_of_false (Matching.not_isMatched_empty r) (by simp)) (List.nodup_finRange n)
  refine ⟨r, hr, fun s hs => (hsome s hs).1, fun hr' => ?_⟩
  by_contra hall
  push Not at hall
  exact hnone (fun i j => by simpa using hall i j) hr'

theorem exists_concludes_of_valid (cost : CostMatrix (Binary f) n m) (maximize : Bool)
    (hvalid : (cost.objective maximize).hasInvalidEntry = false) :
    ∃ verdict, (solveNormal (cost.normalize maximize)).outcome = .ok verdict ∧
      Concludes (cost.objective maximize) verdict := by
  by_cases hnm : n ≤ m
  · rw [CostMatrix.normalize_of_le _ _ hnm, solveNormal]
    obtain ⟨r, hr, hsome, hnone⟩ := exists_complete_or_none hnm hvalid
    refine ⟨_, Run.outcome_bind (solveChecked_outcome hvalid hr) _, ?_⟩
    cases r with
    | none => exact .infeasible (hnone rfl)
    | some s =>
      obtain ⟨ps, hlists, hps⟩ := lists_ofUpright (hsome s rfl)
      exact .solved hlists (nodup_columns hlists.nodup hps (hsome s rfl).injOn_snd_pairs)
  · have hmn : m < n := Nat.lt_of_not_le hnm
    have hvalid' : (cost.objective maximize).transpose.hasInvalidEntry = false := by
      rw [CostMatrix.hasInvalidEntry_transpose, hvalid]
    rw [CostMatrix.normalize_of_lt _ _ hmn, solveNormal]
    obtain ⟨r, hr, hsome, hnone⟩ := exists_complete_or_none hmn.le hvalid'
    refine ⟨_, Run.outcome_bind (solveChecked_outcome hvalid' hr) _, ?_⟩
    cases r with
    | none =>
      obtain ⟨j, i, hij⟩ := hnone rfl
      exact .infeasible ⟨i, j, by rwa [CostMatrix.getElem_transpose] at hij⟩
    | some s =>
      obtain ⟨ps, hlists, hps⟩ := lists_ofTransposed (hsome s rfl)
      refine .solved hlists (nodup_columns hlists.nodup hps fun p hp q hq he => ?_)
      obtain ⟨p', hp', rfl⟩ := Finset.mem_image.mp (Finset.mem_coe.mp hp)
      obtain ⟨q', hq', rfl⟩ := Finset.mem_image.mp (Finset.mem_coe.mp hq)
      rw [Matching.injOn_fst_pairs hp' hq' he]

theorem exists_concludes (cost : CostMatrix (Binary f) n m) (maximize : Bool) :
    ∃ verdict, (solve cost maximize).outcome = .ok verdict ∧
      Concludes (cost.objective maximize) verdict := by
  by_cases hmin : min n m = 0
  · have hlists : (⟨[], Vector.replicate n 0, Vector.replicate m 0⟩ :
        Solution (Binary f) n m).Lists [] := ⟨rfl, List.Pairwise.nil⟩
    exact ⟨_, by rw [solve, if_pos hmin, Run.outcome_pure], .solved hlists List.nodup_nil⟩
  · rw [solve_outcome_eq _ _ hmin]
    rcases hvalid : (cost.objective maximize).hasInvalidEntry with _ | _
    · exact exists_concludes_of_valid cost maximize hvalid
    · exact ⟨.invalid, solveNormal_outcome_of_invalid cost maximize hvalid, .invalid hvalid⟩

end LinearAssignment.Rectangular
