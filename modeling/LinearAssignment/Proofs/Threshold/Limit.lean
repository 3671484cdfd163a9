import LinearAssignment.Proofs.Threshold.Gate
import Mathlib.Algebra.Order.BigOperators.Ring.Finset
import Mathlib.Tactic.NormNum

/-! The limit at which a gated matrix is extended. A finite threshold is the limit itself. An
infinite one is replaced by a limit that dominates the costs, so that the least excess belongs to
the matchings of most pairs, and among these to the cheapest. -/
namespace LinearAssignment.CostMatrix
open scoped BigOperators

section entries

theorem mem_entries {α : Type} {n m : ℕ} (cost : CostMatrix α n m) (i : Fin n) (j : Fin m) :
    cost[i][j] ∈ cost.entries := by
  refine List.mem_flatMap.mpr ⟨cost[i], ?_, ?_⟩
  · exact Vector.mem_toList_iff.mpr (Vector.getElem_mem i.isLt)
  · exact Vector.mem_toList_iff.mpr (Vector.getElem_mem j.isLt)

theorem exists_of_mem_entries {α : Type} {n m : ℕ} {cost : CostMatrix α n m} {x : α}
    (h : x ∈ cost.entries) : ∃ (i : Fin n) (j : Fin m), x = cost[i][j] := by
  obtain ⟨row, hrow, hx⟩ := List.mem_flatMap.mp h
  obtain ⟨i, hi, rfl⟩ := Vector.mem_iff_getElem.mp (Vector.mem_toList_iff.mp hrow)
  obtain ⟨j, hj, rfl⟩ := Vector.mem_iff_getElem.mp (Vector.mem_toList_iff.mp hx)
  exact ⟨⟨i, hi⟩, ⟨j, hj⟩, rfl⟩

variable {α : Type} [Cost α] {n m : ℕ} {cost : CostMatrix α n m}

theorem exists_of_magnitude? {μ : α} (h : cost.magnitude? = some μ) :
    ∃ (i : Fin n) (j : Fin m), Cost.isFinite cost[i][j] = true ∧ μ = Cost.abs cost[i][j] := by
  have hmem : μ ∈ (cost.entries.filter Cost.isFinite).map Cost.abs := by
    unfold magnitude? at h
    split at h
    next => exact nomatch h
    next x rest hlist =>
      rw [hlist, ← Option.some.inj h]
      refine List.foldlRecOn rest _ List.mem_cons_self fun a ha b hb => ?_
      split
      · exact List.mem_cons_of_mem x hb
      · exact ha
  obtain ⟨x, hx, rfl⟩ := List.mem_map.mp hmem
  obtain ⟨hentry, hfinite⟩ := List.mem_filter.mp hx
  obtain ⟨i, j, rfl⟩ := exists_of_mem_entries hentry
  exact ⟨i, j, hfinite, rfl⟩

end entries

variable {bound : ℚ} {bids n m : ℕ} {cost : CostMatrix (Exact bound bids) n m}
  {Q S : Finset (Fin n × Fin m)} {limit μ : ℚ}

section magnitude

theorem abs_number (q : ℚ) : Cost.abs (.number q : Exact bound bids) = .number |q| := by
  unfold Cost.abs
  split
  next h =>
    rw [abs_of_neg (Exact.number_lt.mp h)]
    rfl
  next h => rw [abs_of_nonneg (not_lt.mp fun hq => h (Exact.number_lt.mpr hq))]

theorem exists_foldl_larger (qs : List ℚ) (a : ℚ) :
    ∃ μ, (qs.map Exact.number).foldl (fun x y => if x < y then y else x)
        (.number a : Exact bound bids) = .number μ ∧ a ≤ μ ∧ ∀ q ∈ qs, q ≤ μ := by
  induction qs generalizing a with
  | nil => exact ⟨a, rfl, le_rfl, by simp⟩
  | cons q qs ih =>
    have hstep : (if (Exact.number a : Exact bound bids) < .number q then .number q
        else .number a : Exact bound bids) = .number (max a q) := by
      split
      next h => rw [max_eq_right (Exact.number_lt.mp h).le]
      next h => rw [max_eq_left (not_lt.mp fun hq => h (Exact.number_lt.mpr hq))]
    obtain ⟨μ, hμ, ha, hqs⟩ := ih (max a q)
    refine ⟨μ, ?_, (le_max_left a q).trans ha, fun x hx => ?_⟩
    · rw [List.map_cons, List.foldl_cons, hstep, hμ]
    · rcases List.mem_cons.mp hx with rfl | hx
      · exact (le_max_right a x).trans ha
      · exact hqs x hx

theorem exists_magnitude (cost : CostMatrix (Exact bound bids) n m) :
    ∃ μ, cost.magnitude?.getD 0 = .number μ ∧ 0 ≤ μ ∧
      ∀ (i : Fin n) (j : Fin m) (q : ℚ), cost[i][j] = .number q → |q| ≤ μ := by
  let qs := (cost.entries.filter Cost.isFinite).map fun x => |x.value|
  have hqs : (cost.entries.filter Cost.isFinite).map Cost.abs =
      qs.map (Exact.number : ℚ → Exact bound bids) := by
    rw [List.map_map]
    refine List.map_congr_left fun x hx => ?_
    obtain ⟨q, rfl⟩ := Exact.isFinite_iff.mp (List.mem_filter.mp hx).2
    exact abs_number q
  have hmem : ∀ (i : Fin n) (j : Fin m) (q : ℚ), cost[i][j] = .number q → |q| ∈ qs := by
    intro i j q hq
    refine List.mem_map.mpr ⟨cost[i][j], List.mem_filter.mpr ⟨mem_entries cost i j, ?_⟩, ?_⟩
    · exact Exact.isFinite_iff.mpr ⟨q, hq⟩
    · rw [hq]
      rfl
  have hnonneg : ∀ q ∈ qs, 0 ≤ q := by
    intro q hq
    obtain ⟨x, -, rfl⟩ := List.mem_map.mp hq
    exact abs_nonneg _
  unfold magnitude?
  rw [hqs]
  cases hlist : qs with
  | nil =>
    refine ⟨0, rfl, le_rfl, fun i j q hq => ?_⟩
    exact absurd (hlist ▸ hmem i j q hq) List.not_mem_nil
  | cons a rest =>
    obtain ⟨μ, hμ, ha, hrest⟩ := @exists_foldl_larger bound bids rest a
    have hle : ∀ q ∈ a :: rest, q ≤ μ := List.forall_mem_cons.mpr ⟨ha, hrest⟩
    refine ⟨μ, hμ, ?_, fun i j q hq => hle _ (hlist ▸ hmem i j q hq)⟩
    exact (hnonneg a (hlist ▸ List.mem_cons_self)).trans ha

end magnitude

section limits

theorem extendAt_number (cost : CostMatrix (Exact bound bids) n m) (limit : ℚ) :
    cost.extendAt (.number limit : Exact bound bids) = cost.extended limit := rfl

theorem isGated_gate (cost : CostMatrix (Exact bound bids) n m) (limit : ℚ) :
    (cost.gate (.number limit)).IsGated limit := by
  intro i j h
  rw [getElem_gate] at h ⊢
  obtain ⟨hfinite, hlt⟩ := isFinite_gateEntry.mp h
  rw [gateEntry_of_below hfinite hlt]
  obtain ⟨q, hq⟩ := Exact.isFinite_iff.mp hfinite
  rw [hq] at hlt ⊢
  exact Exact.number_lt.mp hlt

/-- Without a threshold the extension is one at a limit above all numbers, and above all that the
totals of two matchings differ by. -/
theorem exists_extendAt_infinite (cost : CostMatrix (Exact bound bids) n m) :
    ∃ limit μ, cost.extendAt (.infinite false : Exact bound bids) = cost.extended limit ∧
      cost.IsGated limit ∧ 2 * (min n m : ℕ) * μ < limit ∧
      ∀ (i : Fin n) (j : Fin m) (q : ℚ), cost[i][j] = .number q → |q| ≤ μ := by
  obtain ⟨μ, hmagnitude, hnonneg, hle⟩ := exists_magnitude cost
  have hk : (0 : ℚ) ≤ (min n m : ℕ) := Nat.cast_nonneg _
  refine ⟨2 * ((min n m : ℕ) + 1) * (μ + 1), μ, ?_, fun i j h => ?_, ?_, hle⟩
  · have hlimit : cost.limit (.infinite false : Exact bound bids) =
        .number (2 * ((min n m : ℕ) + 1) * (μ + 1)) := by
      unfold limit
      rw [hmagnitude]
      rfl
    unfold extendAt
    rw [hlimit]
    rfl
  · obtain ⟨q, hq⟩ := Exact.isFinite_iff.mp h
    have hq' := (le_abs_self q).trans (hle i j q hq)
    rw [hq]
    change q < _
    nlinarith
  · nlinarith

end limits

section domination

theorem IsMatching.card_le (h : cost.IsMatching Q) : Q.card ≤ min n m := by
  have hrows := Finset.card_le_card_of_injOn Prod.fst (fun q _ => Finset.mem_univ q.1) h.rows
  have hcolumns := Finset.card_le_card_of_injOn Prod.snd (fun q _ => Finset.mem_univ q.2) h.columns
  rw [Finset.card_univ, Fintype.card_fin] at hrows hcolumns
  exact le_min hrows hcolumns

theorem IsMatching.abs_worth_le (h : cost.IsMatching Q)
    (hμ : ∀ (i : Fin n) (j : Fin m) (q : ℚ), cost[i][j] = .number q → |q| ≤ μ) :
    |cost.worth Q| ≤ Q.card * μ := by
  calc |cost.worth Q| ≤ ∑ q ∈ Q, |cost[q.1][q.2].value| := Finset.abs_sum_le_sum_abs _ _
    _ ≤ Q.card • μ := Finset.sum_le_card_nsmul _ _ _ fun q hq => by
        obtain ⟨x, hx⟩ := Exact.isFinite_iff.mp (h.finite q hq)
        rw [hx]
        exact hμ _ _ x hx
    _ = Q.card * μ := nsmul_eq_mul _ _

/-- Of two matchings of which one has more pairs, this one has less excess over a dominating
limit. -/
theorem card_le_of_excess_le (hS : cost.IsMatching S) (hQ : cost.IsMatching Q)
    (hμ : ∀ (i : Fin n) (j : Fin m) (q : ℚ), cost[i][j] = .number q → |q| ≤ μ)
    (hlimit : 2 * (min n m : ℕ) * μ < limit)
    (hle : cost.excess limit S ≤ cost.excess limit Q) : Q.card ≤ S.card := by
  by_contra hlt
  have hcard : (S.card : ℚ) + 1 ≤ Q.card := by exact_mod_cast not_le.mp hlt
  have hmin : (Q.card : ℚ) ≤ (min n m : ℕ) := by exact_mod_cast hQ.card_le
  obtain ⟨q, hq⟩ : Q.Nonempty := Finset.card_pos.mp (by omega)
  obtain ⟨x, hx⟩ := Exact.isFinite_iff.mp (hQ.finite q hq)
  have hnonneg : 0 ≤ μ := (abs_nonneg x).trans (hμ _ _ x hx)
  have hworthS := (abs_le.mp (hS.abs_worth_le hμ)).1
  have hworthQ := (abs_le.mp (hQ.abs_worth_le hμ)).2
  have hsum : ((S.card : ℚ) + Q.card) * μ ≤ 2 * (min n m : ℕ) * μ :=
    mul_le_mul_of_nonneg_right (by linarith) hnonneg
  have hlimit_nonneg : 0 ≤ limit := by
    have : 0 ≤ 2 * ((min n m : ℕ) : ℚ) * μ := by positivity
    linarith
  have hgain : limit ≤ (Q.card - S.card) * limit :=
    le_mul_of_one_le_left hlimit_nonneg (by linarith)
  rw [excess_eq, excess_eq] at hle
  linarith

end domination

end LinearAssignment.CostMatrix
