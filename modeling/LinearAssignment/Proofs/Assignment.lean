import LinearAssignment.NormalForm
import LinearAssignment.Proofs.ExactCost
import Mathlib.Algebra.Order.BigOperators.Group.Finset
import Mathlib.Data.Fintype.Card
import Mathlib.Tactic.FinCases

/-! Assignments of the smaller side of a matrix, their total costs, and the potentials that
certify one of them to be optimal. -/
namespace LinearAssignment.CostMatrix
open scoped BigOperators

section entries

variable {α β : Type} {n m : ℕ}

theorem getElem_ofFn (entry : Fin n → Fin m → α) (i : Fin n) (j : Fin m) :
    (ofFn entry)[i][j] = entry i j := by
  rw [ofFn, getElem_ofFn_fin, getElem_ofFn_fin]

theorem getElem_transpose (cost : CostMatrix α n m) (i : Fin n) (j : Fin m) :
    cost.transpose[j][i] = cost[i][j] := getElem_ofFn _ _ _

theorem ext_entries {a b : CostMatrix α n m}
    (h : ∀ (i : Fin n) (j : Fin m), a[i][j] = b[i][j]) : a = b :=
  ext_fin fun i => ext_fin (h i)

theorem transpose_transpose (cost : CostMatrix α n m) : cost.transpose.transpose = cost :=
  ext_entries fun i j => by rw [getElem_transpose, getElem_transpose]

theorem getElem_mapEntries (g : α → β) (cost : CostMatrix α n m) (i : Fin n) (j : Fin m) :
    (cost.mapEntries g)[i][j] = g cost[i][j] := by
  rw [mapEntries, getElem_map_fin, getElem_map_fin]

theorem getElem_objective [Cost α] (cost : CostMatrix α n m) (maximize : Bool) (i : Fin n)
    (j : Fin m) :
    (cost.objective maximize)[i][j] = if maximize then -cost[i][j] else cost[i][j] := by
  cases maximize
  · rfl
  · exact getElem_mapEntries _ _ _ _

theorem transpose_objective [Cost α] (cost : CostMatrix α n m) (maximize : Bool) :
    cost.transpose.objective maximize = (cost.objective maximize).transpose :=
  ext_entries fun j i => by
    rw [getElem_transpose, getElem_objective, getElem_objective, getElem_transpose]

theorem normalize_of_le [Cost α] (cost : CostMatrix α n m) (maximize : Bool) (h : n ≤ m) :
    cost.normalize maximize = .upright h (cost.objective maximize) := dif_pos h

theorem normalize_of_lt [Cost α] (cost : CostMatrix α n m) (maximize : Bool) (h : m < n) :
    cost.normalize maximize = .transposed h (cost.objective maximize).transpose := by
  rw [normalize, dif_neg h.not_ge, transpose_objective]

theorem hasInvalidEntry_iff [Cost α] {cost : CostMatrix α n m} :
    cost.hasInvalidEntry = true ↔
      ∃ (i : Fin n) (j : Fin m), Cost.isInvalid cost[i][j] = true := by
  simp only [hasInvalidEntry, Vector.any_eq_true]
  constructor
  · rintro ⟨i, hi, j, hj, h⟩
    exact ⟨⟨i, hi⟩, ⟨j, hj⟩, h⟩
  · rintro ⟨i, j, h⟩
    exact ⟨i, i.isLt, j, j.isLt, h⟩

theorem isInvalid_eq_false [Cost α] {cost : CostMatrix α n m}
    (hvalid : cost.hasInvalidEntry = false) (i : Fin n) (j : Fin m) :
    Cost.isInvalid cost[i][j] = false := by
  rw [Bool.eq_false_iff]
  intro h
  rw [hasInvalidEntry_iff.mpr ⟨i, j, h⟩] at hvalid
  exact absurd hvalid (by simp)

theorem hasInvalidEntry_transpose [Cost α] (cost : CostMatrix α n m) :
    cost.transpose.hasInvalidEntry = cost.hasInvalidEntry := by
  rw [Bool.eq_iff_iff, hasInvalidEntry_iff, hasInvalidEntry_iff, exists_comm]
  simp only [getElem_transpose]

end entries

section assignments

variable {α : Type} [Cost α] {n m : ℕ} {cost : CostMatrix α n m} {P : Finset (Fin n × Fin m)}

structure IsMatching (cost : CostMatrix α n m) (P : Finset (Fin n × Fin m)) : Prop where
  rows : Set.InjOn Prod.fst (P : Set (Fin n × Fin m))
  columns : Set.InjOn Prod.snd (P : Set (Fin n × Fin m))
  finite : ∀ p ∈ P, Cost.isFinite cost[p.1][p.2] = true

structure IsAssignment (cost : CostMatrix α n m) (P : Finset (Fin n × Fin m)) : Prop
    extends cost.IsMatching P where
  card : P.card = min n m

theorem IsMatching.mono {Q : Finset (Fin n × Fin m)} (h : cost.IsMatching P) (hQ : Q ⊆ P) :
    cost.IsMatching Q where
  rows := h.rows.mono hQ
  columns := h.columns.mono hQ
  finite p hp := h.finite p (hQ hp)

theorem isMatching_empty : cost.IsMatching ∅ := by
  constructor <;> simp

theorem IsMatching.transpose (h : cost.IsMatching P) :
    cost.transpose.IsMatching (P.image Prod.swap) where
  rows := by
    simp only [Finset.coe_image]
    rintro _ ⟨p, hp, rfl⟩ _ ⟨q, hq, rfl⟩ he
    exact congrArg Prod.swap (h.columns hp hq he)
  columns := by
    simp only [Finset.coe_image]
    rintro _ ⟨p, hp, rfl⟩ _ ⟨q, hq, rfl⟩ he
    exact congrArg Prod.swap (h.rows hp hq he)
  finite p hp := by
    obtain ⟨q, hq, rfl⟩ := Finset.mem_image.mp hp
    simpa only [Prod.fst_swap, Prod.snd_swap, getElem_transpose] using h.finite q hq

theorem IsAssignment.transpose (h : cost.IsAssignment P) :
    cost.transpose.IsAssignment (P.image Prod.swap) where
  toIsMatching := h.toIsMatching.transpose
  card := by rw [Finset.card_image_of_injective _ Prod.swap_injective, h.card, min_comm]

theorem IsAssignment.of_transpose {Q : Finset (Fin m × Fin n)}
    (h : cost.transpose.IsAssignment Q) : cost.IsAssignment (Q.image Prod.swap) := by
  have h' := h.transpose
  rwa [transpose_transpose] at h'

theorem image_side_eq_univ {ι κ : Type} [Fintype ι] [DecidableEq ι] {Q : Finset κ} {side : κ → ι}
    (hside : Set.InjOn side (Q : Set κ)) (hcard : Q.card = Fintype.card ι) :
    Q.image side = Finset.univ := by
  apply Finset.eq_univ_of_card
  rw [Finset.card_image_of_injOn hside, hcard]

theorem IsAssignment.exists_column (h : cost.IsAssignment P) (hnm : n ≤ m) (i : Fin n) :
    ∃ j, (i, j) ∈ P := by
  have himage := image_side_eq_univ h.rows (by rw [h.card, Fintype.card_fin, min_eq_left hnm])
  obtain ⟨p, hp, rfl⟩ := Finset.mem_image.mp (himage ▸ Finset.mem_univ i)
  exact ⟨p.2, hp⟩

theorem IsAssignment.exists_row (h : cost.IsAssignment P) (hmn : m ≤ n) (j : Fin m) :
    ∃ i, (i, j) ∈ P := by
  have himage := image_side_eq_univ h.columns (by rw [h.card, Fintype.card_fin, min_eq_right hmn])
  obtain ⟨p, hp, rfl⟩ := Finset.mem_image.mp (himage ▸ Finset.mem_univ j)
  exact ⟨p.1, hp⟩

theorem IsAssignment.exists_columns (h : cost.IsAssignment P) (hnm : n ≤ m) :
    ∃ f : Fin n → Fin m, Function.Injective f ∧
      ∀ i, Cost.isFinite cost[i][f i] = true := by
  choose f hf using h.exists_column hnm
  refine ⟨f, fun i i' he => ?_, fun i => h.finite _ (hf i)⟩
  exact congrArg Prod.fst (h.columns (hf i) (hf i') he)

end assignments

variable {bound : ℚ} {bids n m : ℕ}

theorem isAssignment_objective {cost : CostMatrix (Exact bound bids) n m} {maximize : Bool}
    {P : Finset (Fin n × Fin m)} :
    (cost.objective maximize).IsAssignment P ↔ cost.IsAssignment P := by
  have hfinite : ∀ (i : Fin n) (j : Fin m),
      Cost.isFinite (cost.objective maximize)[i][j] = Cost.isFinite cost[i][j] := by
    intro i j
    rw [getElem_objective]
    split
    · exact Exact.isFinite_neg _
    · rfl
  constructor <;> intro h
  · exact ⟨⟨h.rows, h.columns, fun p hp => hfinite p.1 p.2 ▸ h.finite p hp⟩, h.card⟩
  · exact ⟨⟨h.rows, h.columns, fun p hp => (hfinite p.1 p.2).trans (h.finite p hp)⟩, h.card⟩

theorem ofTop_toTop_of_valid {cost : CostMatrix (Exact bound bids) n m}
    (hvalid : cost.hasInvalidEntry = false) (i : Fin n) (j : Fin m) :
    cost[i][j] = .ofTop cost[i][j].toTop := by
  refine (Exact.ofTop_toTop fun h => ?_).symm
  have hentry := isInvalid_eq_false hvalid i j
  rw [h] at hentry
  exact absurd hentry (by decide)

def worth (cost : CostMatrix (Exact bound bids) n m) (P : Finset (Fin n × Fin m)) : ℚ :=
  ∑ p ∈ P, cost[p.1][p.2].value

theorem worth_objective (cost : CostMatrix (Exact bound bids) n m) (maximize : Bool)
    (P : Finset (Fin n × Fin m)) :
    (cost.objective maximize).worth P = if maximize then -cost.worth P else cost.worth P := by
  cases maximize
  · rfl
  · simp only [worth, getElem_objective, if_true, Exact.value_neg, Finset.sum_neg_distrib]

/-- Potentials that prove an assignment optimal: no finite entry is below the sum of the
potentials of its row and column, matched entries equal it, and on the longer side potentials
are not positive and vanish where nothing is matched. -/
structure IsCertified (cost : CostMatrix (Exact bound bids) n m) (P : Finset (Fin n × Fin m))
    (u : Fin n → ℚ) (v : Fin m → ℚ) : Prop where
  tight : ∀ p ∈ P, cost[p.1][p.2] = .number (u p.1 + v p.2)
  below : ∀ (i : Fin n) (j : Fin m) (q : ℚ), cost[i][j] = .number q → u i + v j ≤ q
  column_nonpos : n ≤ m → ∀ j, v j ≤ 0
  column_free : n ≤ m → ∀ j, (∀ i, (i, j) ∉ P) → v j = 0
  row_nonpos : m < n → ∀ i, u i ≤ 0
  row_free : m < n → ∀ i, (∀ j, (i, j) ∉ P) → u i = 0

section empty

variable {cost : CostMatrix (Exact bound bids) n m}

theorem isAssignment_empty (h : min n m = 0) : cost.IsAssignment ∅ :=
  ⟨isMatching_empty, by rw [h, Finset.card_empty]⟩

theorem isCertified_empty (h : min n m = 0) :
    cost.IsCertified ∅ (fun _ => 0) fun _ => 0 := by
  refine ⟨by simp, fun i j => ?_, by simp, by simp, by simp, by simp⟩
  have hi := i.isLt
  have hj := j.isLt
  omega

end empty

section duality

variable {ι κ : Type} [Fintype ι] [DecidableEq ι] {Q : Finset κ} {side : κ → ι} {g : ι → ℚ}

theorem sum_side_eq (hside : Set.InjOn side (Q : Set κ)) (hg : ∀ i ∉ Q.image side, g i = 0) :
    ∑ p ∈ Q, g (side p) = ∑ i, g i := by
  rw [← Finset.sum_image hside]
  exact Finset.sum_subset (Finset.subset_univ _) fun i _ hi => hg i hi

theorem sum_le_sum_side (hside : Set.InjOn side (Q : Set κ)) (hg : ∀ i, g i ≤ 0) :
    ∑ i, g i ≤ ∑ p ∈ Q, g (side p) := by
  rw [← Finset.sum_image hside, ← Finset.sum_add_sum_compl (Q.image side)]
  have h : ∑ i ∈ (Q.image side)ᶜ, g i ≤ 0 := Finset.sum_nonpos fun i _ => hg i
  linarith

theorem sum_side_of_card (hside : Set.InjOn side (Q : Set κ)) (hcard : Q.card = Fintype.card ι) :
    ∑ p ∈ Q, g (side p) = ∑ i, g i := by
  have himage := image_side_eq_univ hside hcard
  exact sum_side_eq hside fun i hi => absurd (himage ▸ Finset.mem_univ i) hi

end duality

namespace IsCertified

variable {cost : CostMatrix (Exact bound bids) n m} {P Q : Finset (Fin n × Fin m)}
  {u : Fin n → ℚ} {v : Fin m → ℚ}

theorem worth_eq (h : cost.IsCertified P u v) :
    cost.worth P = ∑ p ∈ P, u p.1 + ∑ p ∈ P, v p.2 := by
  rw [worth, ← Finset.sum_add_distrib]
  exact Finset.sum_congr rfl fun p hp => by rw [h.tight p hp]; rfl

theorem le_worth (h : cost.IsCertified P u v) (hQ : cost.IsMatching Q) :
    ∑ p ∈ Q, u p.1 + ∑ p ∈ Q, v p.2 ≤ cost.worth Q := by
  rw [worth, ← Finset.sum_add_distrib]
  refine Finset.sum_le_sum fun p hp => ?_
  obtain ⟨q, hq⟩ := Exact.isFinite_iff.mp (hQ.finite p hp)
  rw [hq]
  exact h.below p.1 p.2 q hq

/-- Weak duality: the longer side pays an assignment no less than all its potentials, and the
certified assignment exactly as much. -/
theorem worth_le (h : cost.IsCertified P u v) (hP : cost.IsAssignment P)
    (hQ : cost.IsAssignment Q) : cost.worth P ≤ cost.worth Q := by
  rcases Nat.lt_or_ge m n with hmn | hnm
  · have hcard : ∀ R : Finset (Fin n × Fin m), cost.IsAssignment R →
        R.card = Fintype.card (Fin m) := fun R hR => by
      rw [hR.card, Fintype.card_fin, min_eq_right hmn.le]
    have hu : ∑ p ∈ P, u p.1 = ∑ i, u i := sum_side_eq hP.rows fun i hi =>
      h.row_free hmn i fun j hj => hi (Finset.mem_image_of_mem Prod.fst hj)
    calc cost.worth P = ∑ i, u i + ∑ j, v j := by
          rw [h.worth_eq, hu, sum_side_of_card hP.columns (hcard P hP)]
      _ ≤ ∑ p ∈ Q, u p.1 + ∑ p ∈ Q, v p.2 := by
          rw [sum_side_of_card hQ.columns (hcard Q hQ)]
          exact add_le_add_left (sum_le_sum_side hQ.rows (h.row_nonpos hmn)) _
      _ ≤ cost.worth Q := h.le_worth hQ.toIsMatching
  · have hcard : ∀ R : Finset (Fin n × Fin m), cost.IsAssignment R →
        R.card = Fintype.card (Fin n) := fun R hR => by
      rw [hR.card, Fintype.card_fin, min_eq_left hnm]
    have hv : ∑ p ∈ P, v p.2 = ∑ j, v j := sum_side_eq hP.columns fun j hj =>
      h.column_free hnm j fun i hi => hj (Finset.mem_image_of_mem Prod.snd hi)
    calc cost.worth P = ∑ i, u i + ∑ j, v j := by
          rw [h.worth_eq, hv, sum_side_of_card hP.rows (hcard P hP)]
      _ ≤ ∑ p ∈ Q, u p.1 + ∑ p ∈ Q, v p.2 := by
          rw [sum_side_of_card hQ.rows (hcard Q hQ)]
          exact add_le_add_right (sum_le_sum_side hQ.columns (h.column_nonpos hnm)) _
      _ ≤ cost.worth Q := h.le_worth hQ.toIsMatching

theorem worth_le_objective {maximize : Bool} (h : (cost.objective maximize).IsCertified P u v)
    (hP : (cost.objective maximize).IsAssignment P) (hQ : cost.IsAssignment Q) :
    if maximize then cost.worth Q ≤ cost.worth P else cost.worth P ≤ cost.worth Q := by
  have hle := h.worth_le hP (isAssignment_objective.mpr hQ)
  simp only [worth_objective] at hle
  cases maximize with
  | false => simpa using hle
  | true => simpa using hle

/-- A certificate of the transpose of a tall matrix certifies the matrix itself, with rows and
columns exchanged. -/
theorem of_transpose {Q : Finset (Fin m × Fin n)} (h : cost.transpose.IsCertified Q v u)
    (hmn : m < n) : cost.IsCertified (Q.image Prod.swap) u v where
  tight p hp := by
    obtain ⟨⟨j, i⟩, hq, rfl⟩ := Finset.mem_image.mp hp
    change cost[i][j] = .number (u i + v j)
    rw [← getElem_transpose, h.tight (j, i) hq, add_comm]
  below i j q hq := by
    rw [← getElem_transpose] at hq
    rw [add_comm]
    exact h.below j i q hq
  column_nonpos hnm := absurd hnm (by omega)
  column_free hnm := absurd hnm (by omega)
  row_nonpos _ := h.column_nonpos hmn.le
  row_free _ i hi := h.column_free hmn.le i fun j hj =>
    hi j (Finset.mem_image_of_mem Prod.swap hj)

end IsCertified

section contested

/-- Two rows that are cheapest in the same column; the first may not take the last one. -/
def contested (bound : ℚ) (bids : ℕ) : CostMatrix (Exact bound bids) 2 3 :=
  #v[#v[.number 4, .number 1, .infinite false], #v[.number 2, .number 1, .number 3]]

theorem hasInvalidEntry_contested : (contested bound bids).hasInvalidEntry = false := by
  cbv

theorem isAssignment_contested : (contested bound bids).IsAssignment {(0, 1), (1, 0)} := by
  refine ⟨⟨?_, ?_, ?_⟩, ?_⟩
  · simp [Set.InjOn]
  · simp [Set.InjOn]
  · simp [contested, getElem_fin (Fin.isLt _), Exact.isFinite_iff]
  · rfl

theorem worth_contested : (contested bound bids).worth {(0, 1), (1, 0)} = 3 := by
  rw [worth, Finset.sum_pair (by decide)]
  change (1 : ℚ) + 2 = 3
  norm_num

theorem abs_le_contested (i : Fin 2) (j : Fin 3) (q : ℚ)
    (h : (contested bound bids)[i][j] = .number q) : |q| ≤ 4 := by
  fin_cases i <;> fin_cases j <;> simp [contested, getElem_fin (Fin.isLt _)] at h <;>
    norm_num [← h]

theorem abs_le_of_contested (i : Fin 2) (j : Fin 3) (q : ℚ)
    (h : (contested 100 bids)[i][j] = .number q) : 2 * (min 2 3 : ℕ) * |q| < 100 := by
  have hle := abs_le_contested i j q h
  norm_num
  linarith

end contested

end LinearAssignment.CostMatrix
