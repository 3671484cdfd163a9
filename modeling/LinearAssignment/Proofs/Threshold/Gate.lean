import LinearAssignment.Proofs.Threshold.Extension
import LinearAssignment.Threshold.Gate
import Mathlib.Data.List.Nodup

/-! What the gate before the solvers and the filter after them do. The gate forbids what is not
below the threshold and keeps every other number; the filter keeps the pairs of the matrix itself
that are not forbidden. -/
namespace LinearAssignment

section lists

variable {α : Type} {n m : ℕ}

def PartialMatching.Lists (r : PartialMatching) (S : Finset (Fin n × Fin m)) : Prop :=
  ∃ qs : List (Fin n × Fin m), r.matched = qs.map (fun q => (q.1.val, q.2.val)) ∧ qs.Nodup ∧
    qs.toFinset = S

theorem PartialMatching.Lists.length_eq {r : PartialMatching} {S : Finset (Fin n × Fin m)}
    (h : r.Lists S) : r.matched.length = S.card := by
  obtain ⟨qs, hqs, hnodup, rfl⟩ := h
  rw [hqs, List.length_map, List.toFinset_card_of_nodup hnodup]

namespace CostMatrix

variable [Cost α] {cost : CostMatrix α n m}

def numbers (q : Fin n × Fin m) : ℤ × ℤ := (q.1.val, q.2.val)

theorem numbers_injective : Function.Injective (numbers : Fin n × Fin m → _) := by
  rintro ⟨i, j⟩ ⟨i', j'⟩ h
  simp only [numbers, Prod.mk.injEq, Int.natCast_inj] at h
  exact Prod.ext (Fin.ext h.1) (Fin.ext h.2)

theorem numbers_place (q : Fin n × Fin m) : numbers (place q) = numbers q := rfl

def pair? (cost : CostMatrix α n m) (p : ℤ × ℤ) : Option (Fin n × Fin m) :=
  if h : (0 ≤ p.1 ∧ 0 ≤ p.2) ∧ p.1.toNat < n ∧ p.2.toNat < m then
    let q : Fin n × Fin m := (⟨p.1.toNat, h.2.1⟩, ⟨p.2.toNat, h.2.2⟩)
    if Cost.isFinite cost[q.1][q.2] then some q else none
  else none

theorem match?_eq (cost : CostMatrix α n m) (p : ℤ × ℤ) :
    cost.match? p = (cost.pair? p).map fun q => (q.1.val, q.2.val) := by
  unfold match? pair? entry?
  by_cases hsign : 0 ≤ p.1 ∧ 0 ≤ p.2
  · by_cases hlt : p.1.toNat < n ∧ p.2.toNat < m
    · simp only [if_pos hsign, dif_pos hlt, dif_pos (And.intro hsign hlt)]
      split <;> rfl
    · simp only [if_pos hsign, dif_neg hlt, dif_neg fun h : _ ∧ _ => hlt h.2]
      rfl
  · simp only [if_neg hsign, dif_neg fun h : _ ∧ _ => hsign h.1]
    rfl

theorem pair?_eq_some {p : ℤ × ℤ} {q : Fin n × Fin m} :
    cost.pair? p = some q ↔ p = numbers q ∧ Cost.isFinite cost[q.1][q.2] = true := by
  unfold pair? numbers
  constructor
  · intro h
    dsimp only at h
    split_ifs at h with hp hfinite
    obtain rfl := Option.some.inj h
    exact ⟨Prod.ext (Int.toNat_of_nonneg hp.1.1).symm (Int.toNat_of_nonneg hp.1.2).symm, hfinite⟩
  · rintro ⟨rfl, hfinite⟩
    have hp : (0 ≤ (q.1.val : ℤ) ∧ 0 ≤ (q.2.val : ℤ)) ∧ (q.1.val : ℤ).toNat < n ∧
        (q.2.val : ℤ).toNat < m := by
      have := q.1.isLt
      have := q.2.isLt
      omega
    rw [dif_pos hp]
    exact if_pos hfinite

/-- Of pairs without repetition, those of the matrix that are not forbidden are kept. -/
theorem lists_split {pairs : List (ℤ × ℤ)} (hnodup : pairs.Nodup) {S : Finset (Fin n × Fin m)}
    (hS : ∀ q, q ∈ S ↔ numbers q ∈ pairs ∧ Cost.isFinite cost[q.1][q.2] = true) :
    (cost.split pairs).Lists S := by
  refine ⟨pairs.filterMap cost.pair?, ?_, ?_, ?_⟩
  · rw [List.map_filterMap]
    exact congrArg (List.filterMap · pairs) (funext cost.match?_eq)
  · refine hnodup.filterMap fun p p' q hp hp' => ?_
    rw [Option.mem_def, pair?_eq_some] at hp hp'
    rw [hp.1, hp'.1]
  · ext q
    rw [List.mem_toFinset, List.mem_filterMap, hS]
    constructor
    · rintro ⟨p, hp, hq⟩
      obtain ⟨rfl, hfinite⟩ := pair?_eq_some.mp hq
      exact ⟨hp, hfinite⟩
    · rintro ⟨hq, hfinite⟩
      exact ⟨numbers q, hq, pair?_eq_some.mpr ⟨rfl, hfinite⟩⟩

theorem getElem_gate (cost : CostMatrix α n m) (t : α) (i : Fin n) (j : Fin m) :
    (cost.gate t)[i][j] = gateEntry t cost[i][j] := getElem_mapEntries _ _ _ _

theorem gateEntry_of_below {t x : α} (h : Cost.isFinite x = true) (ht : x < t) :
    gateEntry t x = x := by
  simp [gateEntry, h, ht]

theorem isFinite_gateEntry_of (hinfinity : ¬ Cost.isFinite (Cost.infinity : α) = true) {t x : α} :
    Cost.isFinite (gateEntry t x) = true ↔ Cost.isFinite x = true ∧ x < t := by
  by_cases h : Cost.isFinite x = true ∧ x < t
  · rw [gateEntry_of_below h.1 h.2]
    exact iff_of_true h.1 h
  · rw [gateEntry, if_neg (by simpa using h)]
    exact iff_of_false hinfinity h

end CostMatrix

end lists

namespace CostMatrix

variable {bound : ℚ} {bids n m : ℕ} {cost : CostMatrix (Exact bound bids) n m}
  {t : Exact bound bids} {Q : Finset (Fin n × Fin m)}

section gate

theorem isFinite_gateEntry {x : Exact bound bids} :
    Cost.isFinite (gateEntry t x) = true ↔ Cost.isFinite x = true ∧ x < t :=
  isFinite_gateEntry_of (by simp [Exact.isFinite_iff, Exact.infinity_eq, Exact.ofTop_top])

theorem hasInvalidEntry_gate (cost : CostMatrix (Exact bound bids) n m) (t : Exact bound bids) :
    (cost.gate t).hasInvalidEntry = false := by
  rw [Bool.eq_false_iff, ne_eq, hasInvalidEntry_iff]
  rintro ⟨i, j, h⟩
  rw [getElem_gate, Exact.isInvalid_iff, gateEntry] at h
  split at h
  next hx =>
    obtain ⟨q, hq⟩ := Exact.isFinite_iff.mp (Bool.and_eq_true_iff.mp hx).1
    simp [hq] at h
  next => simp [Exact.infinity_eq, Exact.ofTop_top] at h

/-- The matchings that the gate leaves are those below the threshold. -/
theorem isMatching_gate :
    (cost.gate t).IsMatching Q ↔ cost.IsMatching Q ∧ ∀ q ∈ Q, cost[q.1][q.2] < t := by
  have hentry : ∀ q : Fin n × Fin m, Cost.isFinite (cost.gate t)[q.1][q.2] = true ↔
      Cost.isFinite cost[q.1][q.2] = true ∧ cost[q.1][q.2] < t := fun q => by
    rw [getElem_gate, isFinite_gateEntry]
  constructor
  · intro h
    exact ⟨⟨h.rows, h.columns, fun q hq => ((hentry q).mp (h.finite q hq)).1⟩,
      fun q hq => ((hentry q).mp (h.finite q hq)).2⟩
  · intro h
    exact ⟨h.1.rows, h.1.columns, fun q hq => (hentry q).mpr ⟨h.1.finite q hq, h.2 q hq⟩⟩

theorem worth_gate (h : (cost.gate t).IsMatching Q) : (cost.gate t).worth Q = cost.worth Q := by
  obtain ⟨hcost, hbelow⟩ := isMatching_gate.mp h
  refine Finset.sum_congr rfl fun q hq => ?_
  rw [getElem_gate, gateEntry_of_below (hcost.finite q hq) (hbelow q hq)]

end gate

end CostMatrix

end LinearAssignment
