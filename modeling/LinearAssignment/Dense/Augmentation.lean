import LinearAssignment.Dense.Frontier
import LinearAssignment.Dense.RowReduction

/-!
Augmentation: a shortest path search from a free row to a free column.

The columns are settled in the order of their distances. When a free column is at the minimum
distance, the settled columns lower their prices and the path to the free column is flipped,
which matches one row more.
-/
namespace LinearAssignment

/-- A search in progress. `settled` counts the columns whose prices change when it ends. -/
structure ColumnSearch (α : Type) (n m : Nat) extends Labels α n m where
  low : Nat
  settled : Nat
  minimum : α

inductive ColumnSearch.Round (α : Type) (n m : Nat) where
  /-- A free column is at the minimum distance. -/
  | found (s : ColumnSearch α n m) (sink : Fin m)
  /-- A column has been scanned and the search goes on. -/
  | passed (s : ColumnSearch α n m)

namespace ColumnSearch

variable {α : Type} [Cost α] {n m : Nat}

def start (row price : Vector α m) (i : Fin n) : ColumnSearch α n m where
  distance := Vector.zipWith (· - ·) row price
  reachedBy := Vector.replicate m i
  order := .initial
  up := 0
  low := 0
  settled := 0
  minimum := 0

/-- If the frontier is empty, collects the columns at the next minimum distance. -/
def advance (s : ColumnSearch α n m) : Except SearchError (ColumnSearch α n m) :=
  if s.up = s.low then do
    let f ← Frontier.collect s.distance s.order s.low
    return { s with order := f.order, up := f.up, minimum := f.distance, settled := s.low }
  else .ok s

/-- A free column of the frontier, if the frontier has just been collected. -/
def freeColumn? (s : ColumnSearch α n m) (isFree : Fin m → Bool) : Option (Fin m) :=
  if s.settled = s.low then (s.order.slice s.low s.up).find? isFree else none

/-- One round: the first column of the frontier is scanned through the row that holds it,
unless the frontier has a free column. -/
def round (cost : CostMatrix α n m) (p : PricedMatching α n m) (s : ColumnSearch α n m) :
    Except SearchError (Round α n m) := do
  let s' ← s.advance
  match s'.freeColumn? p.isFree with
  | some j => return .found s' j
  | none =>
    if h : s.low < m then
      let j := s'.order[(⟨s.low, h⟩ : Fin m)]
      match p.rowOf[j] with
      | none => return .found s' j
      | some i =>
        let base := cost[i][j] - p.price[j] - s'.minimum
        let (labels, sink) := s'.toLabels.relax cost[i] p.price p.isFree i base s'.minimum
        let next : ColumnSearch α n m := { s' with toLabels := labels, low := s.low + 1 }
        return match sink with
          | some j' => .found next j'
          | none => .passed next
    else throw .columnsExhausted

theorem low_of_round {cost : CostMatrix α n m} {p : PricedMatching α n m}
    {s s' : ColumnSearch α n m} (h : s.round cost p = .ok (.passed s')) :
    s.low < m ∧ s'.low = s.low + 1 := by
  unfold round at h
  simp only [bind, Except.bind, pure, Except.pure, throw, throwThe, MonadExceptOf.throw] at h
  repeat' split at h
  all_goals simp_all
  rw [← h]

def run (cost : CostMatrix α n m) (p : PricedMatching α n m) (s : ColumnSearch α n m) :
    Except SearchError (ColumnSearch α n m × Fin m) :=
  match _h : s.round cost p with
  | .error e => .error e
  | .ok (.found s' j) => .ok (s', j)
  | .ok (.passed s') => run cost p s'
  termination_by m - s.low
  decreasing_by
    have := low_of_round _h
    omega

/-- A settled column gives way by as much as its distance is below the minimum. -/
def concede (s : ColumnSearch α n m) (price : Vector α m) (j : Fin m) : Vector α m :=
  price.setIfInBounds j (price[j] + s.distance[j] - s.minimum)

def newPrices (s : ColumnSearch α n m) (price : Vector α m) : Vector α m :=
  (s.order.slice 0 s.settled).foldl s.concede price

end ColumnSearch

namespace PricedMatching

variable {α : Type} [Cost α] {n m : Nat}

def augmentRow (cost : CostMatrix α n m) (p : PricedMatching α n m) (i : Fin n) :
    Except SearchError (PricedMatching α n m) := do
  let (s, sink) ← ColumnSearch.run cost p (.start cost[i] p.price i)
  return ⟨p.toMatching.augment (fun j => some s.reachedBy[j]) i sink, s.newPrices p.price⟩

end PricedMatching

end LinearAssignment
