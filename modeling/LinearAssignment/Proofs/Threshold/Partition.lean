import LinearAssignment.Proofs.Dense.Termination
import LinearAssignment.Proofs.Rectangular.Verdict
import LinearAssignment.Proofs.Threshold.Assignment
import LinearAssignment.Threshold.Gate

/-! The result of an assignment below a threshold in floating-point arithmetic. Whatever rounding
does, both solvers match the extended problem in such a way that what is left of it is a matching of
entries below the threshold, and the rows and columns that are not in it are listed as free. -/
namespace LinearAssignment

/-- The matches share no row and no column, and the rows and columns in none of them are the free
ones, in ascending order. -/
structure PartialMatching.IsPartition (r : PartialMatching) (n m : ℕ) : Prop where
  rows : (r.matched.map Prod.fst).Nodup
  columns : (r.matched.map Prod.snd).Nodup
  inside : ∀ p ∈ r.matched, p.1 < n ∧ p.2 < m
  freeRows_sorted : r.freeRows.Pairwise (· < ·)
  freeColumns_sorted : r.freeColumns.Pairwise (· < ·)
  mem_freeRows : ∀ i, i ∈ r.freeRows ↔ i < n ∧ i ∉ r.matched.map Prod.fst
  mem_freeColumns : ∀ j, j ∈ r.freeColumns ↔ j < m ∧ j ∉ r.matched.map Prod.snd

section split

variable {n m : ℕ}

theorem PartialMatching.isPartition_ofMatches {ps : List (ℕ × ℕ)} (hrows : (ps.map Prod.fst).Nodup)
    (hcolumns : (ps.map Prod.snd).Nodup) (hinside : ∀ p ∈ ps, p.1 < n ∧ p.2 < m) :
    (ofMatches n m ps).IsPartition n m where
  rows := hrows
  columns := hcolumns
  inside := hinside
  freeRows_sorted := List.pairwise_lt_range.filter _
  freeColumns_sorted := List.pairwise_lt_range.filter _
  mem_freeRows i := by simp [ofMatches]
  mem_freeColumns j := by simp [ofMatches]

namespace CostMatrix

variable {α : Type} [Cost α] {cost : CostMatrix α n m} {pairs : List (ℤ × ℤ)}

theorem match?_eq_some {p : ℤ × ℤ} {a : ℕ × ℕ} : cost.match? p = some a ↔
    ∃ q : Fin n × Fin m, p = numbers q ∧ a = (q.1.val, q.2.val) ∧
      Cost.isFinite cost[q.1][q.2] = true := by
  rw [match?_eq, Option.map_eq_some_iff]
  simp only [pair?_eq_some]
  constructor
  · rintro ⟨q, ⟨hp, hfinite⟩, rfl⟩
    exact ⟨q, hp, rfl, hfinite⟩
  · rintro ⟨q, hp, rfl, hfinite⟩
    exact ⟨q, ⟨hp, hfinite⟩, rfl⟩

theorem mem_matched_split {a : ℕ × ℕ} (h : a ∈ (cost.split pairs).matched) :
    ∃ q : Fin n × Fin m, a = (q.1.val, q.2.val) ∧ Cost.isFinite cost[q.1][q.2] = true := by
  obtain ⟨p, -, hp⟩ := List.mem_filterMap.mp h
  obtain ⟨q, -, ha, hfinite⟩ := match?_eq_some.mp hp
  exact ⟨q, ha, hfinite⟩

/-- Pairs that share no row and no column keep to that when some of them are dropped. -/
theorem isPartition_split (cost : CostMatrix α n m) (hrows : (pairs.map Prod.fst).Nodup)
    (hcolumns : (pairs.map Prod.snd).Nodup) : (cost.split pairs).IsPartition n m := by
  refine PartialMatching.isPartition_ofMatches ?_ ?_ fun a ha => ?_
  · refine List.pairwise_map.mpr (List.pairwise_filterMap.mpr ?_)
    refine (List.pairwise_map.mp hrows).imp fun hne a ha b hb hab => hne ?_
    obtain ⟨q, rfl, rfl, -⟩ := match?_eq_some.mp ha
    obtain ⟨q', rfl, rfl, -⟩ := match?_eq_some.mp hb
    exact congrArg Int.ofNat hab
  · refine List.pairwise_map.mpr (List.pairwise_filterMap.mpr ?_)
    refine (List.pairwise_map.mp hcolumns).imp fun hne a ha b hb hab => hne ?_
    obtain ⟨q, rfl, rfl, -⟩ := match?_eq_some.mp ha
    obtain ⟨q', rfl, rfl, -⟩ := match?_eq_some.mp hb
    exact congrArg Int.ofNat hab
  · obtain ⟨q, rfl, -⟩ := mem_matched_split ha
    exact ⟨q.1.isLt, q.2.isLt⟩

end CostMatrix

end split

namespace Dense

variable {f : Format} {n m : ℕ}

/-- Of a square matrix all rows and columns are matched, if it is solved at all. -/
theorem isComplete_of_solve {k : ℕ} {cost : CostMatrix (Binary f) k k} {maximize : Bool}
    {s : Solution (Binary f) k k} (h : (solve cost maximize).outcome = .ok s) : s.IsComplete := by
  by_cases hk : min k k = 0
  · rw [min_self] at hk
    subst hk
    exact ⟨fun i => i.elim0, fun i => i.elim0⟩
  · unfold solve at h
    rw [if_neg hk] at h
    obtain ⟨t, ht, hs⟩ := Run.exists_of_outcome_bind h
    rw [Run.outcome_emit_bind, Run.outcome_pure] at hs
    injection hs with hs
    subst hs
    rw [CostMatrix.normalize_of_le _ _ le_rfl, solveNormal] at ht
    exact isComplete_of_solveWide le_rfl ht

theorem nodup_rows_rowPairs {k l : ℕ} (rows : ℕ) (columnOf : Vector (Option (Fin l)) k) :
    ((rowPairs rows columnOf).map Prod.fst).Nodup := by
  have hzip : ((columnOf.toList.take rows).zipIdx.map Prod.snd).Nodup := List.nodup_zipIdx_map_snd _
  refine List.pairwise_map.mpr (List.pairwise_filterMap.mpr ?_)
  refine (List.pairwise_map.mp hzip).imp ?_
  rintro ⟨j, i⟩ ⟨j', i'⟩ hne p hp p' hp'
  simp only [Option.map_eq_some_iff] at hp hp'
  obtain ⟨b, -, rfl⟩ := hp
  obtain ⟨b', -, rfl⟩ := hp'
  exact fun he => hne (Int.ofNat_inj.mp he)

theorem exists_of_mem_rowPairs {k l : ℕ} {rows : ℕ} {columnOf : Vector (Option (Fin l)) k}
    {p : ℤ × ℤ} (hp : p ∈ rowPairs rows columnOf) :
    ∃ q : Fin k × Fin l, p = CostMatrix.numbers q ∧ columnOf[q.1] = some q.2 := by
  obtain ⟨⟨j, i⟩, hi, hj⟩ := List.mem_filterMap.mp hp
  obtain ⟨b, -, rfl⟩ := Option.map_eq_some_iff.mp hj
  have hlt : i < k := by
    have hi' := (List.getElem?_eq_some_iff.mp (List.mem_zipIdx_iff_getElem?.mp hi)).1
    rw [List.length_take, Vector.length_toList] at hi'
    exact lt_of_lt_of_le hi' (min_le_right _ _)
  exact ⟨(⟨i, hlt⟩, b), rfl, (mem_rowPairs.mp hp).2⟩

theorem nodup_columns_rowPairs {k l : ℕ} {s : Matching k l} (rows : ℕ) (hs : s.IsComplete) :
    ((rowPairs rows s.columnOf).map Prod.snd).Nodup := by
  refine (nodup_rowPairs rows s.columnOf).map_on fun p hp p' hp' he => ?_
  obtain ⟨⟨a, b⟩, rfl, hb⟩ := exists_of_mem_rowPairs hp
  obtain ⟨⟨a', b'⟩, rfl, hb'⟩ := exists_of_mem_rowPairs hp'
  obtain rfl : b = b' := Fin.ext (Int.ofNat_inj.mp he)
  have hrow : a = a' :=
    Option.some.inj ((hs.columnOf_iff.mp hb).symm.trans (hs.columnOf_iff.mp hb'))
  rw [hrow]

theorem isPartition_of_assign {cost : CostMatrix (Binary f) n m} {t : Binary .double}
    {r : PartialMatching} (h : (assign cost t).outcome = .ok r) :
    r.IsPartition n m ∧ ∃ pairs, r = (cost.gate (Threshold.toCost t)).split pairs := by
  unfold assign at h
  obtain ⟨s, hs, hr⟩ := Run.exists_of_outcome_bind h
  have hcomplete := isComplete_of_solve (Run.outcome_of_mapError hs)
  rw [Run.outcome_pure] at hr
  injection hr with hr
  subst hr
  exact ⟨CostMatrix.isPartition_split _ (nodup_rows_rowPairs n s.columnOf)
    (nodup_columns_rowPairs n hcomplete), _, rfl⟩

end Dense

namespace Rectangular

variable {f : Format} {n m : ℕ} {cost : CostMatrix (Binary f) n m} {t : Binary .double}
  {r : PartialMatching}

theorem exists_of_matches? {α : Type} [Cost α] {k l : ℕ} {cost : CostMatrix α n m}
    {run : Run (Event α) SearchError (Verdict (Solution α k l))}
    (h : (matches? cost run).outcome = .ok r) :
    ∃ s, run.outcome = .ok (.solved s) ∧
      r = cost.split (s.pairs.map fun p => ((p.1 : ℤ), (p.2 : ℤ))) := by
  obtain ⟨verdict, hverdict, hr⟩ := Run.exists_of_outcome_bind h
  obtain ⟨s, hs, hr⟩ := Run.exists_of_outcome_bind hr
  rw [Run.outcome_pure] at hr
  injection hr with hr
  subst hr
  cases verdict with
  | solved s' =>
    obtain rfl : s' = s := by injection hs
    exact ⟨s', Run.outcome_of_mapError hverdict, rfl⟩
  | infeasible | invalid => exact nomatch hs

theorem isPartition_of_matches? {k l : ℕ} {M : CostMatrix (Binary f) k l} {maximize : Bool}
    (h : (matches? cost (solve M maximize)).outcome = .ok r) :
    r.IsPartition n m ∧ ∃ pairs, r = cost.split pairs := by
  obtain ⟨s, hs, rfl⟩ := exists_of_matches? h
  refine ⟨?_, _, rfl⟩
  obtain ⟨verdict, hverdict, hconcludes⟩ := exists_concludes M maximize
  obtain rfl : verdict = .solved s := by
    rw [hs] at hverdict
    injection hverdict with hverdict
    exact hverdict.symm
  cases hconcludes with
  | @solved _ ps lists columns =>
    have hrows : (ps.map Prod.fst).Nodup := lists.sorted.imp fun hlt => hlt.ne
    have hcast : ∀ c : ℕ, Function.Injective fun a : Fin c => (a.val : ℤ) := fun c a b hab =>
      Fin.ext (Int.ofNat_inj.mp hab)
    have hfst : (ps.map CostMatrix.numbers).map Prod.fst =
        (ps.map Prod.fst).map fun a : Fin k => (a.val : ℤ) := by
      rw [List.map_map, List.map_map]
      rfl
    have hsnd : (ps.map CostMatrix.numbers).map Prod.snd =
        (ps.map Prod.snd).map fun a : Fin l => (a.val : ℤ) := by
      rw [List.map_map, List.map_map]
      rfl
    rw [(nodup_numbers lists).1]
    refine CostMatrix.isPartition_split cost ?_ ?_
    · rw [hfst]
      exact hrows.map (hcast k)
    · rw [hsnd]
      exact columns.map (hcast l)

/-- The extension is solved at a finite threshold, and at the others if the problem itself has no
solution. -/
theorem assign_outcome (cost : CostMatrix (Binary f) n m) (t : Binary .double) :
    let gated := cost.gate (Threshold.toCost t)
    (assign cost t).outcome = (matches? gated (solve (gated.extendAt t) false)).outcome ∧
        (t.isFinite = true ∨ (solve gated false).outcome = .ok .infeasible) ∨
      (assign cost t).outcome = (matches? gated (solve gated false)).outcome ∧
        (solve gated false).outcome ≠ .ok .infeasible := by
  intro gated
  obtain ⟨verdict, hverdict, -⟩ := exists_concludes gated false
  have hmapped := Run.outcome_mapError hverdict Failure.search
  by_cases ht : Threshold.isFinite (Binary f) t = true
  · refine .inl ⟨?_, .inl ht⟩
    unfold assign
    rw [if_pos ht]
    rfl
  · unfold assign
    rw [if_neg ht, Run.outcome_bind hmapped, hverdict, matches?, matches?,
      Run.outcome_bind hmapped]
    cases verdict with
    | infeasible => exact .inl ⟨rfl, .inr rfl⟩
    | solved | invalid => exact .inr ⟨rfl, fun h => nomatch h⟩

theorem isPartition_of_assign (h : (assign cost t).outcome = .ok r) :
    r.IsPartition n m ∧ ∃ pairs, r = (cost.gate (Threshold.toCost t)).split pairs := by
  rcases assign_outcome cost t with ⟨he, -⟩ | ⟨he, -⟩
  · exact isPartition_of_matches? (he ▸ h)
  · exact isPartition_of_matches? (he ▸ h)

end Rectangular

end LinearAssignment
