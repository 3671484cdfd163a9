import LinearAssignment.Binary.Basic
import LinearAssignment.Certificate
import LinearAssignment.CostMatrix

/-!
Thresholds: pairings at or above a threshold are forbidden, and rows and columns may remain
unmatched.

A problem with a threshold is reduced to one without by extending the matrix. Every row gains
a dummy column and every column a dummy row at half of the limit, so that a row and a column
that are left unmatched cost as much together as a pairing at the limit. The matches and the
unmatched rows and columns are then split off from the pairs of a solution.
-/
namespace LinearAssignment

/-- Thresholds of type `τ` for costs of type `α`, which may be of lower precision. -/
class Threshold (τ α : Type) where
  /-- The cost nearest to a threshold. -/
  toCost : τ → α
  /-- The cost nearest to half of a threshold. -/
  halfCost : τ → α
  isFinite : τ → Bool
  /-- A finite limit for `k` pairs whose costs have at most the given magnitude. It exceeds
  every difference between the totals of two assignments, so that the number of matches is
  maximised first. -/
  dominating : (k : Nat) → (magnitude : α) → τ

namespace CostMatrix

variable {τ α : Type} [Cost α] {n m : Nat}

/-- A cost, or infinity if it is not finite or not below the threshold. -/
def gateEntry (threshold x : α) : α :=
  if Cost.isFinite x && x < threshold then x else Cost.infinity

def gate (cost : CostMatrix α n m) (threshold : α) : CostMatrix α n m :=
  cost.mapEntries (gateEntry threshold)

/-- A cost, or the limit if it is not finite or not below the limit. -/
def clipEntry (limit x : α) : α := if Cost.isFinite x && x < limit then x else limit

/-- The matrix with a dummy column for each row and a dummy row for each column. A dummy row
and a dummy column are paired at no cost. -/
def extend (cost : CostMatrix α n m) (limit half : α) : CostMatrix α (n + m) (n + m) :=
  .ofFn fun i j =>
    if hi : i.val < n then
      if hj : j.val < m then clipEntry limit cost[(⟨i, hi⟩ : Fin n)][(⟨j, hj⟩ : Fin m)] else half
    else if j.val < m then half
    else 0

variable [Threshold τ α]

/-- The limit of an extension: the threshold itself if it is finite, and otherwise one that
dominates the costs. -/
def limit (cost : CostMatrix α n m) (threshold : τ) : τ :=
  if Threshold.isFinite α threshold then threshold
  else Threshold.dominating (min n m) (cost.magnitude?.getD 0)

def extendAt (cost : CostMatrix α n m) (threshold : τ) : CostMatrix α (n + m) (n + m) :=
  let limit := cost.limit threshold
  cost.extend (Threshold.toCost limit) (Threshold.halfCost limit)

end CostMatrix

namespace Binary

/-- A limit that dominates the costs of `k` pairs of at most the given magnitude. -/
def dominating (k : Nat) (magnitude : Binary .double) : Binary .double :=
  .ofInt 2 * .ofInt (k + 1) * (magnitude + .ofInt 1)

end Binary

instance (f : Format) : Threshold (Binary .double) (Binary f) where
  toCost t := t.convert f
  halfCost t := t.halve.convert f
  isFinite := Binary.isFinite
  dominating k magnitude := Binary.dominating k (magnitude.convert .double)

/-- A matching that may leave rows and columns of both sides unmatched. -/
structure PartialMatching where
  matched : List (Nat × Nat)
  freeRows : List Nat
  freeColumns : List Nat
  deriving DecidableEq

namespace PartialMatching

def ofMatches (n m : Nat) (matched : List (Nat × Nat)) : PartialMatching where
  matched := matched
  freeRows := (List.range n).filter fun i => !(matched.map Prod.fst).contains i
  freeColumns := (List.range m).filter fun j => !(matched.map Prod.snd).contains j

end PartialMatching

namespace CostMatrix

variable {α : Type} [Cost α] {n m : Nat}

def match? (cost : CostMatrix α n m) (pair : Int × Int) : Option (Nat × Nat) :=
  if 0 ≤ pair.1 ∧ 0 ≤ pair.2 then
    match cost.entry? pair.1.toNat pair.2.toNat with
    | some x => if Cost.isFinite x then some (pair.1.toNat, pair.2.toNat) else none
    | none => none
  else none

/-- Drops the pairs that meet a dummy row, a dummy column or a forbidden entry. -/
def split (cost : CostMatrix α n m) (pairs : List (Int × Int)) : PartialMatching :=
  .ofMatches n m (pairs.filterMap cost.match?)

end CostMatrix

end LinearAssignment
