import LinearAssignment.Cost

/-!
Vectors read at indices of their own size, which are never out of bounds, and cost matrices of
fixed dimensions.
-/
namespace LinearAssignment

section vector

variable {α β γ : Type} {n : Nat}

instance getElemFin : GetElem (Vector α n) (Fin n) α fun _ _ => True where
  getElem xs i _ := xs.get i

theorem getElem_fin {xs : Vector α n} {i : Fin n} (h : i.val < n) : xs[i] = xs[i.val] := rfl

@[simp]
theorem getElem_ofFn_fin (f : Fin n → α) (i : Fin n) : (Vector.ofFn f)[i] = f i := by
  rw [getElem_fin i.isLt, Vector.getElem_ofFn]

@[simp]
theorem getElem_replicate_fin (x : α) (i : Fin n) : (Vector.replicate n x)[i] = x := by
  rw [getElem_fin i.isLt, Vector.getElem_replicate]

@[simp]
theorem getElem_map_fin (f : α → β) (xs : Vector α n) (i : Fin n) :
    (xs.map f)[i] = f xs[i] := by
  rw [getElem_fin i.isLt, Vector.getElem_map]
  rfl

@[simp]
theorem getElem_zipWith_fin (f : α → β → γ) (xs : Vector α n) (ys : Vector β n) (i : Fin n) :
    (Vector.zipWith f xs ys)[i] = f xs[i] ys[i] := by
  rw [getElem_fin i.isLt, Vector.getElem_zipWith]
  rfl

@[simp]
theorem getElem_set_fin (xs : Vector α n) (i k : Fin n) (x : α) :
    (xs.setIfInBounds i x)[k] = if k = i then x else xs[k] := by
  rw [getElem_fin k.isLt, Vector.getElem_setIfInBounds]
  simp only [Fin.val_inj, eq_comm]
  rfl

theorem ext_fin {xs ys : Vector α n} (h : ∀ i : Fin n, xs[i] = ys[i]) : xs = ys :=
  Vector.ext fun i hi => h ⟨i, hi⟩

end vector

/-- The cost of pairing each of `n` rows with each of `m` columns. -/
abbrev CostMatrix (α : Type) (n m : Nat) : Type := Vector (Vector α m) n

namespace CostMatrix

variable {α β : Type} {n m : Nat}

def ofFn (entry : Fin n → Fin m → α) : CostMatrix α n m :=
  Vector.ofFn fun i => Vector.ofFn (entry i)

theorem flatIndex_lt (i : Fin n) (j : Fin m) : i.val * m + j.val < n * m := by
  have hi : i.val + 1 ≤ n := i.isLt
  have h : (i.val + 1) * m ≤ n * m := Nat.mul_le_mul_right m hi
  have hj := j.isLt
  rw [Nat.succ_mul] at h
  omega

/-- The matrix whose entries, row by row, are given. -/
def ofEntries (n m : Nat) (entries : Vector α (n * m)) : CostMatrix α n m :=
  ofFn fun i j => entries.get ⟨i.val * m + j.val, flatIndex_lt i j⟩

def entries (cost : CostMatrix α n m) : List α := cost.toList.flatMap Vector.toList

def mapEntries (g : α → β) (cost : CostMatrix α n m) : CostMatrix β n m := cost.map (·.map g)

def transpose (cost : CostMatrix α n m) : CostMatrix α m n := ofFn fun j i => cost[i][j]

def hasInvalidEntry [Cost α] (cost : CostMatrix α n m) : Bool :=
  cost.any fun row => row.any Cost.isInvalid

end CostMatrix

end LinearAssignment
