import LinearAssignment.Dense.RowReduction

/-!
Row reduction with all its rows in one list.

The rows that are to bid are read from the list one after the other. A row that is outbid is written
back to the place that was read last, and a row that has to wait is written to the front of the
list, behind those that wait already.
-/
namespace LinearAssignment

/-- The rows of a phase in one list: the first `waiting` of them wait for the next phase, and those
from `next` up to `stop` are still to bid. What stands between and behind them is of no account. -/
structure RowList (n : Nat) where
  rows : List (Fin n)
  waiting : Nat
  next : Nat
  stop : Nat
  stop_le : stop ≤ rows.length

namespace RowList

variable {n : Nat}

def start (rows : List (Fin n)) (count : Nat) (h : count ≤ rows.length) : RowList n :=
  ⟨rows, 0, 0, count, h⟩

def kept (l : RowList n) : List (Fin n) := l.rows.take l.waiting

def unread (l : RowList n) : List (Fin n) := (l.rows.take l.stop).drop l.next

def read (l : RowList n) : RowList n := { l with next := l.next + 1 }

/-- Makes room for the row that lost its column to the bid of the row read last. -/
def place (l : RowList n) : Displaced n → RowList n
  | .nobody => l
  | .outbid i =>
    { l with rows := l.rows.set (l.next - 1) i, next := l.next - 1,
             stop_le := by simpa using l.stop_le }
  | .deferred i =>
    { l with rows := l.rows.set l.waiting i, waiting := l.waiting + 1,
             stop_le := by simpa using l.stop_le }

variable {α : Type} [Cost α] {m : Nat}

/-- Lets the rows of the list bid until none is left to be read. At most `steps` bids are made. -/
def run (cost : CostMatrix α n m) :
    Nat → PricedMatching α n m → RowList n → Except SearchError (PricedMatching α n m × RowList n)
  | 0, s, l => .ok (s, l)
  | steps + 1, s, l =>
    if h : l.next < l.stop then do
      let (s, displaced) ← s.bid cost (l.rows.get ⟨l.next, Nat.lt_of_lt_of_le h l.stop_le⟩)
      run cost steps s (l.read.place displaced)
    else .ok (s, l)

end RowList

end LinearAssignment
