import LinearAssignment.Proofs.Assignment
import LinearAssignment.Request
import Mathlib.Data.List.FinRange

/-! The two ways back from a normal form. The solution of a transposed matrix is brought back to its
rows by exchanging two lists of indices, or by sorting the pairs by what were columns before. Both
tell one matching. -/
namespace LinearAssignment.NormalForm

section sorting

variable {κ β : Type} [LinearOrder κ]

theorem pairwise_le_mergeSort (pairs : List (κ × β)) :
    (pairs.mergeSort fun p q => p.1 ≤ q.1).Pairwise fun p q => p.1 ≤ q.1 := by
  have htrans : ∀ a b c : κ × β, decide (a.1 ≤ b.1) = true → decide (b.1 ≤ c.1) = true →
      decide (a.1 ≤ c.1) = true := fun a b c hab hbc => by
    simp only [decide_eq_true_eq] at hab hbc ⊢
    exact hab.trans hbc
  have htotal : ∀ a b : κ × β, (decide (a.1 ≤ b.1) || decide (b.1 ≤ a.1)) = true :=
    fun a b => by simpa using le_total a.1 b.1
  exact (List.pairwise_mergeSort htrans htotal pairs).imp fun hpq => by simpa using hpq

/-- Sorting leaves nothing equal where nothing was. -/
theorem pairwise_lt_mergeSort {pairs : List (κ × β)} (h : (pairs.map Prod.fst).Nodup) :
    ((pairs.mergeSort fun p q => p.1 ≤ q.1).map Prod.fst).Pairwise (· < ·) := by
  have hnodup : ((pairs.mergeSort fun p q => p.1 ≤ q.1).map Prod.fst).Nodup :=
    ((List.mergeSort_perm pairs _).map Prod.fst).nodup_iff.mpr h
  exact ((List.pairwise_map.mpr (pairwise_le_mergeSort pairs)).and hnodup).imp fun hpq =>
    lt_of_le_of_ne hpq.1 hpq.2

end sorting

section lists

variable {columnOf rowOf : List ℤ} {pairs pairs' : List (ℤ × ℤ)}

/-- The list of the columns of all rows and the list of the rows of all columns both tell these
pairs. Whatever is in neither is -1. -/
structure Tell (columnOf rowOf : List ℤ) (pairs : List (ℤ × ℤ)) : Prop where
  columns : ∀ {i j}, (i, j) ∈ pairs ↔ ∃ k : ℕ, i = k ∧ columnOf[k]? = some j ∧ 0 ≤ j
  rows : ∀ {i j}, (i, j) ∈ pairs ↔ ∃ k : ℕ, j = k ∧ rowOf[k]? = some i ∧ 0 ≤ i
  no_column : ∀ j ∈ columnOf, 0 ≤ j ∨ j = -1
  no_row : ∀ i ∈ rowOf, 0 ≤ i ∨ i = -1

namespace Tell

theorem swap (h : Tell columnOf rowOf pairs) : Tell rowOf columnOf (pairs.map Prod.swap) where
  columns {i j} := by
    rw [← h.rows, ← Prod.swap_prod_mk, List.mem_map_of_injective Prod.swap_injective]
  rows {i j} := by
    rw [← h.columns, ← Prod.swap_prod_mk, List.mem_map_of_injective Prod.swap_injective]
  no_column := h.no_row
  no_row := h.no_column

theorem perm (h : Tell columnOf rowOf pairs) (hperm : pairs'.Perm pairs) :
    Tell columnOf rowOf pairs' where
  columns := hperm.mem_iff.trans h.columns
  rows := hperm.mem_iff.trans h.rows
  no_column := h.no_column
  no_row := h.no_row

theorem mem_map_fst_iff (h : Tell columnOf rowOf pairs) {i : ℤ} :
    i ∈ pairs.map Prod.fst ↔ ∃ k : ℕ, i = k ∧ ∃ j, columnOf[k]? = some j ∧ 0 ≤ j := by
  simp only [List.mem_map, Prod.exists, exists_and_right, exists_eq_right, h.columns]
  exact ⟨fun ⟨j, k, hk, hj⟩ => ⟨k, hk, j, hj⟩, fun ⟨k, hk, j, hj⟩ => ⟨j, k, hk, hj⟩⟩

theorem eq_neg_one (h : Tell columnOf rowOf pairs) {k : ℕ} (hk : (k : ℤ) ∉ pairs.map Prod.fst)
    {j : ℤ} (hj : columnOf[k]? = some j) : j = -1 :=
  (h.no_column j (List.mem_of_getElem? hj)).resolve_left fun hle =>
    hk (h.mem_map_fst_iff.mpr ⟨k, rfl, j, hj, hle⟩)

end Tell

end lists

section inverse

variable {k l : ℕ} {f : Fin k → Fin l}

def inverse (f : Fin k → Fin l) (j : Fin l) : Option (Fin k) :=
  (List.finRange k).find? fun i => f i = j

theorem inverse_eq_some_iff (hf : Function.Injective f) {i : Fin k} {j : Fin l} :
    inverse f j = some i ↔ f i = j := by
  constructor
  · intro h
    simpa using List.find?_some h
  · rintro rfl
    obtain ⟨i', hi'⟩ : ∃ i', inverse f (f i) = some i' :=
      Option.isSome_iff_exists.mp (List.find?_isSome.mpr ⟨i, List.mem_finRange i, by simp⟩)
    have hsame : f i' = f i := by simpa using List.find?_some hi'
    rw [hi', hf hsame]

def columnList (f : Fin k → Fin l) : List ℤ := List.ofFn fun i => ((f i).val : ℤ)

def rowList (f : Fin k → Fin l) : List ℤ := List.ofFn fun j => indexOrMinusOne (inverse f j)

theorem getElem?_ofFn_eq_some {β : Type} {g : Fin k → β} {a : ℕ} {b : β} :
    (List.ofFn g)[a]? = some b ↔ ∃ i : Fin k, i.val = a ∧ g i = b := by
  rw [List.getElem?_ofFn]
  constructor
  · intro h
    split at h
    next ha => exact ⟨⟨a, ha⟩, rfl, Option.some.inj h⟩
    next => exact nomatch h
  · rintro ⟨i, rfl, rfl⟩
    exact dif_pos i.isLt

theorem indexOrMinusOne_eq_iff {o : Option (Fin k)} {z : ℤ} :
    indexOrMinusOne o = z ∧ 0 ≤ z ↔ ∃ i, o = some i ∧ (i.val : ℤ) = z := by
  cases o with
  | none =>
    simp only [indexOrMinusOne, reduceCtorEq, false_and, exists_false, iff_false]
    omega
  | some i =>
    simp only [indexOrMinusOne, Option.some.injEq, exists_eq_left']
    omega

theorem mem_restorePairs_upright {i j : ℤ} : (i, j) ∈ restorePairs false (columnList f) ↔
    ∃ a : Fin k, (a.val : ℤ) = i ∧ ((f a).val : ℤ) = j := by
  simp only [restorePairs, Bool.false_eq_true, if_false, List.mem_map, Prod.exists,
    List.mk_mem_zipIdx_iff_getElem?, columnList, getElem?_ofFn_eq_some, Prod.mk.injEq]
  constructor
  · rintro ⟨_, _, ⟨a, rfl, rfl⟩, rfl, rfl⟩
    exact ⟨a, rfl, rfl⟩
  · rintro ⟨a, rfl, rfl⟩
    exact ⟨_, _, ⟨a, rfl, rfl⟩, rfl, rfl⟩

theorem tell_upright (hf : Function.Injective f) :
    Tell (columnList f) (rowList f) (restorePairs false (columnList f)) where
  columns {i j} := by
    rw [mem_restorePairs_upright]
    simp only [columnList, getElem?_ofFn_eq_some]
    constructor
    · rintro ⟨a, rfl, rfl⟩
      exact ⟨a, rfl, ⟨a, rfl, rfl⟩, Int.natCast_nonneg _⟩
    · rintro ⟨_, rfl, ⟨a, rfl, rfl⟩, -⟩
      exact ⟨a, rfl, rfl⟩
  rows {i j} := by
    rw [mem_restorePairs_upright]
    simp only [rowList, getElem?_ofFn_eq_some]
    constructor
    · rintro ⟨a, rfl, rfl⟩
      have hrow := indexOrMinusOne_eq_iff.mpr ⟨a, (inverse_eq_some_iff hf).mpr rfl, rfl⟩
      exact ⟨_, rfl, ⟨f a, rfl, hrow.1⟩, hrow.2⟩
    · rintro ⟨_, rfl, ⟨b, rfl, hi⟩, hle⟩
      obtain ⟨a, ha, rfl⟩ := indexOrMinusOne_eq_iff.mp ⟨hi, hle⟩
      exact ⟨a, rfl, by rw [(inverse_eq_some_iff hf).mp ha]⟩
  no_column j hj := by
    obtain ⟨a, rfl⟩ := List.mem_ofFn.mp hj
    exact .inl (Int.natCast_nonneg _)
  no_row i hi := by
    obtain ⟨b, rfl⟩ := List.mem_ofFn.mp hi
    cases inverse f b with
    | none => exact .inr rfl
    | some a => exact .inl (Int.natCast_nonneg _)

/-- The pairs of a transposed matrix are those of the upright one in another order, with rows and
columns exchanged. -/
theorem restorePairs_transposed (columns : List ℤ) :
    restorePairs true columns =
      ((restorePairs false columns).map Prod.swap).mergeSort fun p q => p.1 ≤ q.1 := rfl

theorem map_fst_restorePairs_upright (columns : List ℤ) :
    (restorePairs false columns).map Prod.fst = (List.range columns.length).map Nat.cast := by
  simp only [restorePairs, Bool.false_eq_true, if_false, List.map_map]
  rw [List.range_eq_range', ← List.zipIdx_map_snd, List.map_map]
  rfl

theorem map_snd_restorePairs_upright (columns : List ℤ) :
    (restorePairs false columns).map Prod.snd = columns := by
  simp only [restorePairs, Bool.false_eq_true, if_false, List.map_map]
  exact List.zipIdx_map_fst 0 columns

/-- Of the transposed matrix, the rows have been columns, of which no two are the same. -/
theorem pairwise_fst_restorePairs (hf : Function.Injective f) (transposed : Bool) :
    ((restorePairs transposed (columnList f)).map Prod.fst).Pairwise (· < ·) := by
  cases transposed with
  | false =>
    rw [map_fst_restorePairs_upright, List.pairwise_map]
    exact List.pairwise_lt_range.imp Int.ofNat_lt.mpr
  | true =>
    rw [restorePairs_transposed]
    refine pairwise_lt_mergeSort ?_
    rw [List.map_map]
    change ((restorePairs false (columnList f)).map Prod.snd).Nodup
    rw [map_snd_restorePairs_upright]
    exact List.nodup_ofFn.mpr (Nat.cast_injective.comp (Fin.val_injective.comp hf))

/-- The lists that go back by exchange and the pairs that go back by sorting tell the same. -/
theorem tell_restored (hf : Function.Injective f) (transposed : Bool) :
    Tell (restorePair transposed (columnList f) (rowList f)).1
      (restorePair transposed (columnList f) (rowList f)).2
      (restorePairs transposed (columnList f)) := by
  cases transposed with
  | false => exact tell_upright hf
  | true => exact (tell_upright hf).swap.perm (List.mergeSort_perm _ _)

end inverse

variable {α : Type} [Cost α] {n m : ℕ}

theorem isTransposed_normalize (cost : CostMatrix α n m) (maximize : Bool) :
    (cost.normalize maximize).isTransposed = decide (m < n) := by
  rcases Nat.lt_or_ge m n with hlt | hle
  · rw [CostMatrix.normalize_of_lt _ _ hlt, decide_eq_true hlt]
    rfl
  · rw [CostMatrix.normalize_of_le _ _ hle, decide_eq_false hle.not_gt]
    rfl

theorem length_restored (cost : CostMatrix α n m) (maximize : Bool)
    (f : Fin (min n m) → Fin (max n m)) :
    let dense :=
      restorePair (cost.normalize maximize).isTransposed (columnList f) (rowList f)
    dense.1.length = n ∧ dense.2.length = m := by
  rw [isTransposed_normalize]
  rcases Nat.lt_or_ge m n with hlt | hle
  · simp [restorePair, columnList, rowList, hlt, hlt.le]
  · simp [restorePair, columnList, rowList, hle.not_gt, hle]

/-- Both ways back from the normal form of a matrix lead to one matching, whatever the shape: the
pairs are in strictly ascending order of their rows, which are all rows that the lists show as
matched; each pair is in both lists; and the lists have -1 everywhere else. -/
theorem restored_agree (cost : CostMatrix α n m) (maximize : Bool)
    (f : Fin (min n m) → Fin (max n m)) (hf : Function.Injective f) :
    let transposed := (cost.normalize maximize).isTransposed
    let dense := restorePair transposed (columnList f) (rowList f)
    let pairs := restorePairs transposed (columnList f)
    (dense.1.length = n ∧ dense.2.length = m) ∧
      (pairs.map Prod.fst).Pairwise (· < ·) ∧
      (∀ i, i ∈ pairs.map Prod.fst ↔ ∃ k : ℕ, i = k ∧ ∃ j, dense.1[k]? = some j ∧ 0 ≤ j) ∧
      (∀ p ∈ pairs, ∃ k l : ℕ, p = (↑k, ↑l) ∧ dense.1[k]? = some p.2 ∧ dense.2[l]? = some p.1) ∧
      (∀ k : ℕ, (k : ℤ) ∉ pairs.map Prod.fst → ∀ j, dense.1[k]? = some j → j = -1) ∧
      ∀ l : ℕ, (l : ℤ) ∉ pairs.map Prod.snd → ∀ i, dense.2[l]? = some i → i = -1 := by
  intro transposed dense pairs
  have htell : Tell dense.1 dense.2 pairs := tell_restored hf transposed
  refine ⟨length_restored cost maximize f, pairwise_fst_restorePairs hf transposed,
    fun i => htell.mem_map_fst_iff, ?_, fun k hk j => htell.eq_neg_one hk, fun l hl i => ?_⟩
  · rintro ⟨i, j⟩ hp
    obtain ⟨k, rfl, hk, -⟩ := htell.columns.mp hp
    obtain ⟨l, rfl, hl, -⟩ := htell.rows.mp hp
    exact ⟨k, l, rfl, hk, hl⟩
  · refine htell.swap.eq_neg_one ?_
    rwa [List.map_map]

def crossed (i : Fin (min 3 2)) : Fin (max 3 2) := if i.val = 0 then Fin.last 2 else ⟨0, by decide⟩

theorem restored_crossed_agree :
    Function.Injective crossed ∧
      ((restorePairs true (columnList crossed)).map Prod.fst).Pairwise (· < ·) ∧
      ∀ p ∈ restorePairs true (columnList crossed), ∃ k l : ℕ, p = (↑k, ↑l) ∧
        (rowList crossed)[k]? = some p.2 ∧ (columnList crossed)[l]? = some p.1 := by
  have hinj : Function.Injective crossed := by decide
  obtain ⟨-, hsorted, -, hpairs, -⟩ :=
    restored_agree (.ofFn fun _ _ => 0 : CostMatrix (Exact 1 1) 3 2) false crossed hinj
  exact ⟨hinj, hsorted, hpairs⟩

end LinearAssignment.NormalForm
