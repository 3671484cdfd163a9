import LinearAssignment.Dense.Frontier

/-!
Collecting and relaxing columns one at a time.

The positions from the end of the frontier on are gone through once. Each column is compared and, if
it joins the frontier, moved before the next one is looked at, so a column is read from the order as
it stands when its position is reached.
-/
namespace LinearAssignment

variable {α : Type} {n m : Nat}

/-- Writes the column at the end of the frontier to a position, and the column that stood at that
position to the end of the frontier. -/
def ColumnOrder.trade (order : ColumnOrder m) (up : Nat) (k : Fin m) : ColumnOrder m :=
  if h : up < m then
    (order.setIfInBounds k order[(⟨up, h⟩ : Fin m)]).setIfInBounds up order[k]
  else order

variable [Cost α]

namespace Frontier

/-- Looks at the column at a position. It joins the frontier if it is at or below the distance of
the frontier; if it is below, the frontier starts anew at `low`. -/
def look (distance : Vector α m) (low : Nat) (f : Frontier α m) (k : Fin m) : Frontier α m :=
  let x := distance[f.order[k]]
  if Cost.atMost x f.distance then
    let nearer := x < f.distance
    let up := if nearer then low else f.up
    ⟨up + 1, if nearer then x else f.distance, f.order.trade up k⟩
  else f

/-- Starts with the column at position `low` and looks at those behind it, one after the other. -/
def partition (distance : Vector α m) (order : ColumnOrder m) (low : Nat) (h : low < m) :
    Frontier α m :=
  (ColumnOrder.positionsFrom (low + 1)).foldl (look distance low)
    ⟨low + 1, distance[order[(⟨low, h⟩ : Fin m)]], order⟩

end Frontier

namespace Labels

/-- Updates the columns at the given positions through row `i`, one after the other. The first free
column that is reached at the current minimum distance ends the search at once: row `i` is recorded
for it, but not its distance. -/
def relaxEach (row price : Vector α m) (isFree : Fin m → Bool) (i : Fin n) (h minimum : α) :
    List (Fin m) → Labels α n m → Labels α n m × Option (Fin m)
  | [], s => (s, none)
  | k :: rest, s =>
    let j := s.order[k]
    let x := row[j] - price[j] - h
    if x < s.distance[j] then
      let s := { s with reachedBy := s.reachedBy.setIfInBounds j i }
      if x == minimum && isFree j then (s, some j)
      else
        let s :=
          if x == minimum then { s with order := s.order.trade s.up k, up := s.up + 1 } else s
        relaxEach row price isFree i h minimum rest
          { s with distance := s.distance.setIfInBounds j x }
    else relaxEach row price isFree i h minimum rest s

end Labels

end LinearAssignment
