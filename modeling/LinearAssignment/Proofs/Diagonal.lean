import LinearAssignment.CostMatrix
import LinearAssignment.Matching
import LinearAssignment.Proofs.Alternation
import LinearAssignment.Proofs.Assignment
import Mathlib.Data.List.OfFn

/-! Matchings along the diagonal, and matrices that are the same everywhere. On such a matrix both
solvers pair the rows in order, each with the column of its own index, and what decides that is
which column is the first free one. -/
namespace LinearAssignment

theorem drop_finRange {n k : ℕ} (h : k < n) :
    (List.finRange n).drop k = ⟨k, h⟩ :: (List.finRange n).drop (k + 1) := by
  rw [List.drop_eq_getElem_cons (by simpa using h), List.getElem_finRange]
  rfl

namespace Matching

variable {n m k : ℕ}

def diagonal (n m k : ℕ) : Matching n m where
  columnOf := Vector.ofFn fun i => if h : i.val < k ∧ i.val < m then some ⟨i, h.2⟩ else none
  rowOf := Vector.ofFn fun j => if h : j.val < k ∧ j.val < n then some ⟨j, h.2⟩ else none

theorem columnOf_diagonal (i : Fin n) : (diagonal n m k).columnOf[i] =
    if h : i.val < k ∧ i.val < m then some ⟨i, h.2⟩ else none :=
  getElem_ofFn_fin _ _

theorem rowOf_diagonal (j : Fin m) : (diagonal n m k).rowOf[j] =
    if h : j.val < k ∧ j.val < n then some ⟨j, h.2⟩ else none :=
  getElem_ofFn_fin _ _

theorem isFree_diagonal (hk : k ≤ n) (j : Fin m) :
    (diagonal n m k).isFree j = true ↔ k ≤ j.val := by
  rw [isFree, rowOf_diagonal]
  split <;> simp <;> omega

theorem ext_indices {s t : Matching n m} (hcolumn : ∀ i : Fin n, s.columnOf[i] = t.columnOf[i])
    (hrow : ∀ j : Fin m, s.rowOf[j] = t.rowOf[j]) : s = t :=
  congrArg₂ Matching.mk (ext_fin hcolumn) (ext_fin hrow)

theorem diagonal_zero : diagonal n m 0 = empty :=
  ext_indices (fun i => by simp [columnOf_diagonal, empty]) fun j => by
    simp [rowOf_diagonal, empty]

theorem pair_diagonal (hn : k < n) (hm : k < m) :
    (diagonal n m k).pair ⟨k, hn⟩ ⟨k, hm⟩ = diagonal n m (k + 1) := by
  refine ext_indices (fun i => ?_) fun j => ?_
  · rw [columnOf_pair, columnOf_diagonal, columnOf_diagonal]
    split_ifs <;> simp_all [Fin.ext_iff] <;> omega
  · rw [rowOf_pair, rowOf_diagonal, rowOf_diagonal]
    split_ifs <;> simp_all [Fin.ext_iff] <;> omega

/-- The first free column is the one whose turn it is. -/
theorem find?_isFree_diagonal (hk : k ≤ n) (hm : k < m) :
    (List.finRange m).find? (diagonal n m k).isFree = some ⟨k, hm⟩ := by
  have hfind := List.find?_ofFn_eq_some_of_injective (p := (diagonal n m k).isFree)
    (i := ⟨k, hm⟩) Function.injective_id
  rw [List.ofFn_id] at hfind
  simp only [id_eq, isFree_diagonal hk] at hfind
  exact hfind.mpr ⟨le_rfl, fun j hj => Nat.not_le.mpr hj⟩

end Matching

namespace CostMatrix

variable {α : Type} {n m : ℕ} {c : α}

def constant (n m : ℕ) (c : α) : CostMatrix α n m := .ofFn fun _ _ => c

theorem getElem_constant (i : Fin n) (j : Fin m) : (constant n m c)[i][j] = c := getElem_ofFn _ _ _

theorem transpose_constant : (constant n m c).transpose = constant m n c :=
  ext_entries fun i j => by simp only [getElem_transpose, getElem_constant]

theorem objective_constant [Cost α] (maximize : Bool) :
    (constant n m c).objective maximize = constant n m (if maximize then -c else c) :=
  ext_entries fun i j => by simp only [getElem_objective, getElem_constant]

theorem hasInvalidEntry_constant [Cost α] (h : Cost.isInvalid c = false) :
    (constant n m c).hasInvalidEntry = false := by
  rw [Bool.eq_false_iff]
  intro hinvalid
  obtain ⟨i, j, hij⟩ := hasInvalidEntry_iff.mp hinvalid
  rw [getElem_constant, h] at hij
  exact Bool.false_ne_true hij

end CostMatrix

end LinearAssignment
