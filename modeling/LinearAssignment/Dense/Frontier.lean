import LinearAssignment.CostMatrix

/-!
The frontier of a shortest path search over columns.

A search keeps the columns in one list. Those before `low` are settled, those from `low` to
`up` form the frontier at the current minimum distance, and the others are still to be
scanned. The order of the columns decides ties, so it is part of the result.
-/
namespace LinearAssignment

abbrev ColumnOrder (m : Nat) : Type := Vector (Fin m) m

namespace ColumnOrder

variable {m : Nat}

def initial : ColumnOrder m := Vector.ofFn id

def positionsFrom (start : Nat) : List (Fin m) := (List.finRange m).drop start

def slice (order : ColumnOrder m) (low up : Nat) : List (Fin m) :=
  (order.toList.take up).drop low

/-- Exchanges the column at a position with the one at the end of the frontier. -/
def join (order : ColumnOrder m) (up : Nat) (k : Fin m) : ColumnOrder m :=
  order.swapIfInBounds up k

end ColumnOrder

structure Frontier (α : Type) (m : Nat) where
  up : Nat
  distance : α
  order : ColumnOrder m

namespace Frontier

variable {α : Type} [Cost α] {m : Nat}

/-- The positions whose value is at or below every value before it, `seen` being the least of
these. NaN is at or below nothing, and nothing after it is at or below it. -/
def records (value : Fin m → α) : α → List (Fin m) → List (Fin m)
  | _, [] => []
  | seen, k :: rest =>
    let x := value k
    let seen' := if Cost.displaces x seen then x else seen
    if Cost.atMost x seen then k :: records value seen' rest else records value seen' rest

/-- Takes in a column that is at or below the distance of the frontier. If it is below, the
frontier starts anew at `low`. -/
def extend (value : Fin m → α) (low : Nat) (s : Frontier α m) (k : Fin m) : Frontier α m :=
  let x := value k
  let up := if x < s.distance then low else s.up
  let distance := if x < s.distance then x else s.distance
  ⟨up + 1, distance, s.order.join up k⟩

def collect (distance : Vector α m) (order : ColumnOrder m) (low : Nat) :
    Except SearchError (Frontier α m) :=
  if h : low < m then
    let value := fun k : Fin m => distance[order[k]]
    let first := value ⟨low, h⟩
    let found := records value first (ColumnOrder.positionsFrom (low + 1))
    .ok (found.foldl (extend value low) ⟨low + 1, first, order⟩)
  else .error .columnsExhausted

end Frontier

/-- What the search knows about the columns that are not settled: their distances, the rows
through which these were found, and the frontier. -/
structure Labels (α : Type) (n m : Nat) where
  distance : Vector α m
  reachedBy : Vector (Fin n) m
  order : ColumnOrder m
  up : Nat

namespace Labels

variable {α : Type} [Cost α] {n m : Nat}

structure Offer (α : Type) (m : Nat) where
  position : Fin m
  column : Fin m
  value : α

/-- The shorter ways that lead through row `i` to columns that are still to be scanned, where
`h` is the reduced cost of the row less the current distance. -/
def offers (s : Labels α n m) (row price : Vector α m) (h : α) : List (Offer α m) :=
  ((ColumnOrder.positionsFrom s.up).map fun k =>
    let j := s.order[k]
    (⟨k, j, row[j] - price[j] - h⟩ : Offer α m)).filter fun o => o.value < s.distance[o.column]

def label (i : Fin n) (s : Labels α n m) (o : Offer α m) : Labels α n m :=
  { s with distance := s.distance.setIfInBounds o.column o.value,
           reachedBy := s.reachedBy.setIfInBounds o.column i }

def enter (s : Labels α n m) (o : Offer α m) : Labels α n m :=
  { s with order := s.order.join s.up o.position, up := s.up + 1 }

/-- Updates the columns that are still to be scanned through row `i`. The first free column
that is reached at the current minimum distance ends the search: it is returned, and it and
all columns after it keep their distances. Other columns at that distance join the frontier. -/
def relax (s : Labels α n m) (row price : Vector α m) (isFree : Fin m → Bool) (i : Fin n)
    (h minimum : α) : Labels α n m × Option (Fin m) :=
  let offers := s.offers row price h
  let ends := fun o : Offer α m => o.value == minimum && isFree o.column
  let taken := offers.takeWhile fun o => !ends o
  let s := taken.foldl (label i) s
  let s := (taken.filter fun o => o.value == minimum).foldl enter s
  match offers.find? ends with
  | none => (s, none)
  | some o => ({ s with reachedBy := s.reachedBy.setIfInBounds o.column i }, some o.column)

end Labels

end LinearAssignment
