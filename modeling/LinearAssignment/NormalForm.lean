import LinearAssignment.CostMatrix
import LinearAssignment.Matching

/-!
The normal form of a problem: a matrix that has no more rows than columns and is to be
minimised. A tall matrix is transposed and a matrix to be maximised is negated; the solution
of the normal form is brought back to the orientation of the given matrix.
-/
namespace LinearAssignment

/-- A problem with `n` rows and `m` columns in its normal form. -/
inductive NormalForm (α : Type) (n m : Nat) where
  | upright (wide : n ≤ m) (cost : CostMatrix α n m)
  | transposed (tall : m < n) (cost : CostMatrix α m n)

namespace CostMatrix

variable {α : Type} [Cost α] {n m : Nat}

def objective (c : CostMatrix α n m) (maximize : Bool) : CostMatrix α n m :=
  if maximize then c.mapEntries (- ·) else c

def normalize (c : CostMatrix α n m) (maximize : Bool) : NormalForm α n m :=
  if h : n ≤ m then .upright h (c.objective maximize)
  else .transposed (Nat.lt_of_not_le h) (c.transpose.objective maximize)

end CostMatrix

namespace NormalForm

variable {α β : Type} {n m : Nat}

def isTransposed : NormalForm α n m → Bool
  | upright .. => false
  | transposed .. => true

/-- What belongs to the rows and what belongs to the columns of the normal form, in the order
of the given matrix. -/
def restorePair (transposed : Bool) (rows columns : β) : β × β :=
  if transposed then (columns, rows) else (rows, columns)

/-- The matched pairs of the given matrix in ascending order of their rows, from the column of
each row of the normal form. -/
def restorePairs {κ : Type} [NatCast κ] [LE κ] [DecidableLE κ] (transposed : Bool)
    (columns : List κ) : List (κ × κ) :=
  let pairs := columns.zipIdx.map fun (j, i) => ((i : κ), j)
  if transposed then (pairs.map Prod.swap).mergeSort fun p q => p.1 ≤ q.1 else pairs

end NormalForm

namespace Matching

variable {n m : Nat}

def columns (s : Matching n m) : List Nat :=
  s.columnOf.toList.filterMap fun j => j.map Fin.val

end Matching

end LinearAssignment
