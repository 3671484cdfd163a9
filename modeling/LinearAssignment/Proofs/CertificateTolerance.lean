import LinearAssignment.Problem.Certificate
import LinearAssignment.Proofs.Binary.Reading
import LinearAssignment.Proofs.CompleteMatching
import LinearAssignment.Proofs.Threshold.Limit

/-! What the check of a certificate says. The check looks at reduced costs only and allows for a
tolerance. An assignment that passes it costs at most the tolerance for each pair more than any
other, up to what the potentials of the lines matched by the one and by the other differ in. They
differ in nothing if no free line has a lower potential than a matched one, which holds in every
square matrix and for the potentials of the solvers, but which the check does not look at. -/
namespace LinearAssignment
open scoped BigOperators

/-- Pairs that leave out no index with a lower potential than one of theirs have the lowest sum of
potentials that so many pairs can have. -/
theorem sum_side_le {ι κ : Type} [DecidableEq ι] {P Q : Finset κ} {side : κ → ι} {g : ι → ℚ}
    (hP : Set.InjOn side (P : Set κ)) (hQ : Set.InjOn side (Q : Set κ)) (hcard : P.card = Q.card)
    (hle : ∀ p ∈ P, ∀ i ∉ P.image side, g (side p) ≤ g i) :
    ∑ p ∈ P, g (side p) ≤ ∑ q ∈ Q, g (side q) := by
  have hlow : ∀ a ∈ P.image side, ∀ i ∉ P.image side, g a ≤ g i := Finset.forall_mem_image.mpr hle
  have hdiff : (P.image side \ Q.image side).card = (Q.image side \ P.image side).card := by
    apply Finset.card_sdiff_comm
    rw [Finset.card_image_of_injOn hP, Finset.card_image_of_injOn hQ, hcard]
  rw [← Finset.sum_image hP, ← Finset.sum_image hQ]
  generalize P.image side = A at hlow hdiff ⊢
  generalize Q.image side = B at hdiff ⊢
  apply Finset.sum_sdiff_le_sum_sdiff.mp
  rcases (A \ B).eq_empty_or_nonempty with hempty | hnonempty
  · have hempty' : B \ A = ∅ := by simpa [hempty] using hdiff.symm
    simp [hempty, hempty']
  · obtain ⟨c, hc, hmax⟩ := Finset.exists_max_image (A \ B) g hnonempty
    have hmin : ∀ b ∈ B \ A, g c ≤ g b := fun b hb =>
      hlow c (Finset.mem_sdiff.mp hc).1 b (Finset.mem_sdiff.mp hb).2
    calc ∑ i ∈ A \ B, g i ≤ (A \ B).card • g c := Finset.sum_le_card_nsmul _ _ _ hmax
      _ = (B \ A).card • g c := by rw [hdiff]
      _ ≤ ∑ i ∈ B \ A, g i := Finset.card_nsmul_le_sum _ _ _ hmin

namespace Exact

variable {bound : ℚ} {bids : ℕ} {x : Exact bound bids} {a b ε : ℚ}

/-- The tolerance of a certificate without rounding: relative to the magnitude, which counts as one
at least, and to the larger dimension. -/
def tolerance (relative : ℚ) (dimension : ℕ) : Exact bound bids → Exact bound bids
  | number q => number (relative * max 1 q * dimension)
  | x => x

theorem number_sub (a b : ℚ) : (number a - number b : Exact bound bids) = number (a - b) :=
  congrArg number (sub_eq_add_neg a b).symm

theorem atMost_number_iff :
    Cost.atMost (number a : Exact bound bids) (number b) = true ↔ a ≤ b := by
  have hbeq : ((number a : Exact bound bids) == number b) = decide (a = b) := rfl
  simp [Cost.atMost, number_lt, hbeq, le_iff_lt_or_eq]

/-- Only a number can be close to the sum of two potentials. -/
theorem atMost_abs_sub_iff :
    Cost.atMost (Cost.abs (x - number a - number b)) (number ε) = true ↔
      ∃ q, x = number q ∧ |q - a - b| ≤ ε := by
  cases x with
  | nan => exact iff_of_false Bool.false_ne_true (by simp)
  | infinite s => cases s <;> exact iff_of_false Bool.false_ne_true (by simp)
  | number q => simp [number_sub, CostMatrix.abs_number, atMost_number_iff]

theorem not_sub_lt_iff {q : ℚ} :
    ¬ (number q - number a - number b : Exact bound bids) < -number ε ↔ a + b ≤ q + ε := by
  have hneg : (-number ε : Exact bound bids) = number (-ε) := rfl
  rw [number_sub, number_sub, hneg, number_lt, not_lt]
  constructor <;> intro h <;> linarith

end Exact

namespace CostMatrix

variable {n m : ℕ}

theorem getElem_reduced {α : Type} [Cost α] (cost : CostMatrix α n m) (u : Vector α n)
    (v : Vector α m) (i : Fin n) (j : Fin m) :
    (cost.reduced u v)[i][j] = cost[i][j] - u[i] - v[j] := by
  simp only [reduced, lessColumns, lessRows, getElem_ofFn]

variable {bound : ℚ} {bids : ℕ} {cost : CostMatrix (Exact bound bids) n m}
  {P Q : Finset (Fin n × Fin m)} {u : Fin n → ℚ} {v : Fin m → ℚ} {ε : ℚ}

/-- Potentials whose reduced costs are zero on the pairs and nowhere negative, up to a tolerance. -/
structure IsCertifiedWithin (cost : CostMatrix (Exact bound bids) n m)
    (P : Finset (Fin n × Fin m)) (u : Fin n → ℚ) (v : Fin m → ℚ) (ε : ℚ) : Prop where
  tight : ∀ p ∈ P, ∃ q, cost[p.1][p.2] = .number q ∧ |q - u p.1 - v p.2| ≤ ε
  below : ∀ (i : Fin n) (j : Fin m) (q : ℚ), cost[i][j] = .number q → u i + v j ≤ q + ε

theorem certifies_iff {s : Matching n m} :
    cost.certifies s.columnOf (.ofFn fun i => .number (u i)) (.ofFn fun j => .number (v j))
      (.number ε) = true ↔ cost.IsCertifiedWithin s.pairs u v ε := by
  have hreduced : ∀ (i : Fin n) (j : Fin m), (cost.reduced (.ofFn fun i => .number (u i))
      (.ofFn fun j => .number (v j)))[i][j] = cost[i][j] - .number (u i) - .number (v j) := by
    intro i j
    simp only [getElem_reduced, getElem_ofFn_fin]
  have htight : isTight ((cost.reduced (.ofFn fun i => .number (u i))
      (.ofFn fun j => .number (v j))).matched s.columnOf) (.number ε) = true ↔
        ∀ p ∈ s.pairs, ∃ q, cost[p.1][p.2] = .number q ∧ |q - u p.1 - v p.2| ≤ ε := by
    simp only [isTight, Matching.matched_eq_map, List.all_map, List.all_eq_true,
      Function.comp_apply, hreduced, Exact.atMost_abs_sub_iff, ← Matching.toFinset_pairList,
      List.mem_toFinset]
  have hbelow : cost.isFeasible (cost.reduced (.ofFn fun i => .number (u i))
      (.ofFn fun j => .number (v j))) (.number ε) = true ↔
        ∀ (i : Fin n) (j : Fin m) (q : ℚ), cost[i][j] = .number q → u i + v j ≤ q + ε := by
    simp only [isFeasible, List.all_eq_true, List.mem_finRange, true_imp_iff, hreduced,
      Bool.not_eq_true', Bool.and_eq_false_imp, decide_eq_false_iff_not, Exact.isFinite_iff]
    refine forall_congr' fun i => forall_congr' fun j => ⟨fun h q hq => ?_, ?_⟩
    · exact Exact.not_sub_lt_iff.mp (hq ▸ h ⟨q, hq⟩)
    · rintro h ⟨q, hq⟩
      rw [hq]
      exact Exact.not_sub_lt_iff.mpr (h q hq)
  rw [certifies, Bool.and_eq_true_iff, hbelow, htight]
  exact ⟨fun h => ⟨h.2, h.1⟩, fun h => ⟨h.below, h.tight⟩⟩

/-- No free line has a lower potential than a matched one. -/
structure LeavesHighest (P : Finset (Fin n × Fin m)) (u : Fin n → ℚ) (v : Fin m → ℚ) : Prop where
  row : ∀ p ∈ P, ∀ i, (∀ j, (i, j) ∉ P) → u p.1 ≤ u i
  column : ∀ p ∈ P, ∀ j, (∀ i, (i, j) ∉ P) → v p.2 ≤ v j

namespace IsCertifiedWithin

theorem isMatching (h : cost.IsCertifiedWithin P u v ε)
    (hrows : Set.InjOn Prod.fst (P : Set (Fin n × Fin m)))
    (hcolumns : Set.InjOn Prod.snd (P : Set (Fin n × Fin m))) : cost.IsMatching P where
  rows := hrows
  columns := hcolumns
  finite p hp := by
    obtain ⟨q, hq, -⟩ := h.tight p hp
    exact Exact.isFinite_iff.mpr ⟨q, hq⟩

theorem worth_le (h : cost.IsCertifiedWithin P u v ε) :
    cost.worth P ≤ ∑ p ∈ P, (u p.1 + v p.2) + P.card * ε := by
  rw [worth, ← nsmul_eq_mul, ← Finset.sum_const, ← Finset.sum_add_distrib]
  apply Finset.sum_le_sum
  intro p hp
  obtain ⟨q, hq, hle⟩ := h.tight p hp
  have hle := (abs_le.mp hle).2
  simp only [hq, Exact.value]
  linarith

theorem le_worth (h : cost.IsCertifiedWithin P u v ε) (hQ : cost.IsMatching Q) :
    ∑ q ∈ Q, (u q.1 + v q.2) ≤ cost.worth Q + Q.card * ε := by
  rw [worth, ← nsmul_eq_mul, ← Finset.sum_const, ← Finset.sum_add_distrib]
  apply Finset.sum_le_sum
  intro p hp
  obtain ⟨q, hq⟩ := Exact.isFinite_iff.mp (hQ.finite p hp)
  simp only [hq, Exact.value]
  exact h.below p.1 p.2 q hq

/-- Weak duality up to the tolerance, and up to the potentials of the lines that only one of the
assignments matches. -/
theorem worth_le_add (h : cost.IsCertifiedWithin P u v ε) (hQ : cost.IsMatching Q) :
    cost.worth P ≤ cost.worth Q + (P.card + Q.card) * ε +
      (∑ p ∈ P, (u p.1 + v p.2) - ∑ q ∈ Q, (u q.1 + v q.2)) := by
  have hP := h.worth_le
  have hQ := h.le_worth hQ
  linarith

end IsCertifiedWithin

theorem LeavesHighest.sum_le (h : LeavesHighest P u v) (hP : cost.IsMatching P)
    (hQ : cost.IsMatching Q) (hcard : P.card = Q.card) :
    ∑ p ∈ P, (u p.1 + v p.2) ≤ ∑ q ∈ Q, (u q.1 + v q.2) := by
  have hrow : ∑ p ∈ P, u p.1 ≤ ∑ q ∈ Q, u q.1 := by
    apply sum_side_le hP.rows hQ.rows hcard
    intro p hp i hi
    exact h.row p hp i fun j hj => hi (Finset.mem_image_of_mem Prod.fst hj)
  have hcolumn : ∑ p ∈ P, v p.2 ≤ ∑ q ∈ Q, v q.2 := by
    apply sum_side_le hP.columns hQ.columns hcard
    intro p hp j hj
    exact h.column p hp j fun i hi => hj (Finset.mem_image_of_mem Prod.snd hi)
  rw [Finset.sum_add_distrib, Finset.sum_add_distrib]
  exact add_le_add hrow hcolumn

/-- The potentials that the solvers return leave the free lines highest. -/
theorem IsCertified.leavesHighest (h : cost.IsCertified P u v) (hP : cost.IsAssignment P) :
    LeavesHighest P u v := by
  constructor
  · intro p _ i hi
    rcases Nat.lt_or_ge m n with hmn | hnm
    · rw [h.row_free hmn i hi]
      exact h.row_nonpos hmn p.1
    · obtain ⟨j, hj⟩ := hP.exists_column hnm i
      exact absurd hj (hi j)
  · intro p _ j hj
    rcases Nat.lt_or_ge m n with hmn | hnm
    · obtain ⟨i, hi⟩ := hP.exists_row hmn.le j
      exact absurd hi (hj i)
    · rw [h.column_free hnm j hj]
      exact h.column_nonpos hnm p.2

theorem eq_empty_of_magnitude?_eq_none (h : cost.magnitude? = none) (hQ : cost.IsMatching Q) :
    Q = ∅ := by
  rw [Finset.eq_empty_iff_forall_notMem]
  intro q hq
  have hmem : cost[q.1][q.2] ∈ cost.entries.filter Cost.isFinite :=
    List.mem_filter.mpr ⟨mem_entries cost q.1 q.2, hQ.finite q hq⟩
  unfold magnitude? at h
  split at h
  next hnil =>
    rw [List.map_eq_nil_iff] at hnil
    simp [hnil] at hmem
  next => exact nomatch h

/-- What a matrix and potentials that pass the check have in common: either nothing can be matched,
or the potentials certify the pairs up to a tolerance that goes with the magnitude of an entry. -/
theorem isDualFeasible_cases {s : Matching n m} {relative : ℚ}
    (h : cost.isDualFeasible s.columnOf (.ofFn fun i => .number (u i))
      (.ofFn fun j => .number (v j)) (Exact.tolerance relative (max n m)) = true) :
    (∀ Q, cost.IsMatching Q → Q = ∅) ∨
      ∃ (i : Fin n) (j : Fin m) (q : ℚ), cost[i][j] = .number q ∧
        cost.IsCertifiedWithin s.pairs u v (relative * max 1 |q| * (max n m : ℕ)) := by
  unfold isDualFeasible at h
  split at h
  next hnone => exact .inl fun Q hQ => eq_empty_of_magnitude?_eq_none hnone hQ
  next magnitude hsome =>
    obtain ⟨i, j, hfinite, rfl⟩ := exists_of_magnitude? hsome
    obtain ⟨q, hq⟩ := Exact.isFinite_iff.mp hfinite
    rw [hq, abs_number] at h
    exact .inr ⟨i, j, q, hq, certifies_iff.mp h⟩

/-- The free lines of an assignment of a square matrix are highest, since there are none. -/
theorem IsAssignment.leavesHighest (h : cost.IsAssignment P) (hnm : n = m) :
    LeavesHighest P u v where
  row _ _ i hi := by
    obtain ⟨j, hj⟩ := h.exists_column hnm.le i
    exact absurd hj (hi j)
  column _ _ j hj := by
    obtain ⟨i, hi⟩ := h.exists_row hnm.ge j
    exact absurd hi (hj i)

/-- An assignment that passes the check costs more than another at most by the tolerance for each
pair of the two, and by what the potentials of its lines exceed those of the lines of the other.
They exceed them by nothing if the free lines are highest, as they are in a square matrix. -/
theorem total_le_of_isDualFeasible {s : Matching n m}
    (hcolumns : Set.InjOn Prod.snd (s.pairs : Set (Fin n × Fin m)))
    (hcard : s.pairs.card = min n m) {relative μ : ℚ} (hrelative : 0 ≤ relative)
    (hμ : ∀ (i : Fin n) (j : Fin m) (q : ℚ), cost[i][j] = .number q → |q| ≤ μ)
    (h : cost.isDualFeasible s.columnOf (.ofFn fun i => .number (u i))
      (.ofFn fun j => .number (v j)) (Exact.tolerance relative (max n m)) = true)
    (hQ : cost.IsAssignment Q) :
    ∃ x, cost.total s.columnOf = .number x ∧
      x ≤ cost.worth Q + 2 * (min n m : ℕ) * (relative * max 1 μ * (max n m : ℕ)) +
        (∑ p ∈ s.pairs, (u p.1 + v p.2) - ∑ q ∈ Q, (u q.1 + v q.2)) ∧
      (n = m ∨ LeavesHighest s.pairs u v →
        x ≤ cost.worth Q + 2 * (min n m : ℕ) * (relative * max 1 μ * (max n m : ℕ))) := by
  rcases isDualFeasible_cases h with hempty | ⟨i, j, q, hq, hwithin⟩
  · have hmin : min n m = 0 := by rw [← hQ.card, hempty Q hQ.toIsMatching, Finset.card_empty]
    have hpairs : s.pairs = ∅ := Finset.card_eq_zero.mp (hcard.trans hmin)
    refine ⟨cost.worth s.pairs, Matching.total_eq (by simp [hpairs]), ?_⟩
    simp [hpairs, hempty Q hQ.toIsMatching, hmin, worth]
  · have hP : cost.IsMatching s.pairs := hwithin.isMatching Matching.injOn_fst_pairs hcolumns
    have htolerance : relative * max 1 |q| * (max n m : ℕ) ≤
        relative * max 1 μ * (max n m : ℕ) := by
      have hle := max_le_max_left 1 (hμ i j q hq)
      gcongr
    have hduality := hwithin.worth_le_add hQ.toIsMatching
    rw [hcard, hQ.card, ← two_mul] at hduality
    have hpairs : 2 * (min n m : ℕ) * (relative * max 1 |q| * (max n m : ℕ)) ≤
        2 * (min n m : ℕ) * (relative * max 1 μ * (max n m : ℕ)) := by
      gcongr
    refine ⟨cost.worth s.pairs, Matching.total_eq hP.finite, by linarith, fun hor => ?_⟩
    have hhigh : LeavesHighest s.pairs u v :=
      hor.elim (IsAssignment.leavesHighest ⟨hP, hcard⟩) id
    have hsum := hhigh.sum_le hP hQ.toIsMatching (hcard.trans hQ.card.symm)
    linarith

/-- The free column is highest, and a reduced cost of the first row is negative within the
tolerance. -/
theorem total_le_contested :
    ∃ x, (contested 100 10).total #v[some 1, some 0] = .number x ∧
      x ≤ (contested 100 10).worth {(0, 1), (1, 0)} +
        2 * (min 2 3 : ℕ) * (1 / 10 * max 1 4 * (max 2 3 : ℕ)) := by
  let s : Matching 2 3 := ⟨#v[some 1, some 0], #v[some 1, some 0, none]⟩
  have hpairs : s.pairs = {(0, 1), (1, 0)} := by decide +kernel
  obtain ⟨x, hx, -, hle⟩ := total_le_of_isDualFeasible (s := s) (Q := {(0, 1), (1, 0)})
    (u := ![5 / 2, 2]) (v := ![0, -1, 0]) (by simp [hpairs, Set.InjOn]) (by simp [hpairs])
    (by norm_num : (0 : ℚ) ≤ 1 / 10) (@abs_le_contested 100 10) (by decide +kernel)
    isAssignment_contested
  refine ⟨x, hx, hle (.inr ⟨?_, ?_⟩)⟩
  · rw [hpairs]
    decide +kernel
  · rw [hpairs]
    decide +kernel

def skewed (bound : ℚ) (bids : ℕ) : CostMatrix (Exact bound bids) 1 2 :=
  #v[#v[.number 5, .number 0]]

/-- A potential that is lower for the free column than for the matched one passes the check,
although the pair of the free column costs less by more than the tolerance. -/
theorem isDualFeasible_skewed :
    (skewed 100 10).isDualFeasible #v[some 0] (.ofFn fun _ => .number 0)
        (.ofFn fun j => .number (![5, 0] j)) (Exact.tolerance (1 / 100000) (max 1 2)) = true ∧
      (skewed 100 10).IsAssignment {(0, 0)} ∧ (skewed 100 10).IsAssignment {(0, 1)} ∧
      (skewed 100 10).total #v[some 0] = .number 5 ∧
      (skewed 100 10).worth {(0, 1)} + 2 * (min 1 2 : ℕ) * (1 / 100000 * max 1 5 * (max 1 2 : ℕ)) <
        5 := by
  have hassignment : ∀ j : Fin 2, (skewed 100 10).IsAssignment {(0, j)} := by
    intro j
    refine ⟨⟨?_, ?_, ?_⟩, ?_⟩
    · simp
    · simp
    · fin_cases j <;> simp [skewed, getElem_fin (Fin.isLt _), Exact.isFinite_iff]
    · rfl
  refine ⟨by decide +kernel, hassignment 0, hassignment 1, by decide +kernel, ?_⟩
  rw [worth, Finset.sum_singleton]
  change (0 : ℚ) + _ < 5
  norm_num

end CostMatrix
end LinearAssignment
