import LinearAssignment.CostMatrix
import LinearAssignment.Matching

/-!
Augmenting row reduction: every free row bids for the column that is cheapest to it.

A row lowers the price of its cheapest column by the difference to its second cheapest and
takes it. A row that is outbid this way bids again at once; a row that loses its column at an
unchanged price has to wait for the next phase.
-/
namespace LinearAssignment

structure PricedMatching (α : Type) (n m : Nat) extends Matching n m where
  price : Vector α m

namespace PricedMatching

variable {α : Type} [Cost α] {n m : Nat}

def initial : PricedMatching α n m := ⟨.empty, Vector.replicate m 0⟩

end PricedMatching

/-- The two smallest reduced costs of a row and the columns that have them. A matrix with one
column has no runner-up. -/
structure Bid (α : Type) (m : Nat) where
  least : α
  second : α
  best : Fin m
  runnerUp : Option (Fin m)

namespace Bid

variable {α : Type} [Cost α] {n m : Nat}

/-- The bid of a row. The best column is the first of minimum reduced cost. The runner-up is
the first free column of second smallest reduced cost, or else the first such column. The
second smallest reduced cost counts as finite even if every other pairing is forbidden. -/
def ofRow (row price : Vector α m) (isFree : Fin m → Bool) : Except SearchError (Bid α m) :=
  let reduced := Vector.zipWith (· - ·) row price
  match Cost.firstMinimum? (fun j : Fin m => reduced[j]) (List.finRange m) with
  | none => .error .nothingToMinimize
  | some best =>
    if m = 1 then .ok ⟨reduced[best], reduced[best], best, none⟩
    else
      let others := reduced.setIfInBounds best Cost.infinity
      match Cost.firstMinimum? (fun j : Fin m => others[j]) (List.finRange m) with
      | none => .error .nothingToMinimize
      | some k =>
        let least := others[k]
        let second := if Cost.largest < least then Cost.largest else least
        let ties := (List.finRange m).filter fun j => j ≠ best && others[j] == least
        match (ties.find? isFree).or ties.head? with
        | none => .error .minimumNotAttained
        | some j => .ok ⟨reduced[best], second, best, some j⟩

end Bid

inductive Displaced (n : Nat) where
  | nobody
  /-- The price of the column has fallen; the row bids again at once. -/
  | outbid (row : Fin n)
  /-- The price has not changed; the row waits. -/
  | deferred (row : Fin n)

namespace PricedMatching

variable {α : Type} [Cost α] {n m : Nat}

/-- The row takes a column: its best one if it lowers the price or the column is free, and
the runner-up otherwise. In a matrix with one column there is no runner-up; the row then
takes over the column without recording it as its own. -/
def bid (cost : CostMatrix α n m) (s : PricedMatching α n m) (i : Fin n) :
    Except SearchError (PricedMatching α n m × Displaced n) := do
  let b ← Bid.ofRow cost[i] s.price s.isFree
  let lowered := s.price[b.best] - (b.second - b.least)
  let holder := s.rowOf[b.best]
  if lowered < s.price[b.best] then
    let s' : PricedMatching α n m :=
      ⟨s.toMatching.pair i b.best, s.price.setIfInBounds b.best lowered⟩
    return (s', match holder with
      | none => .nobody
      | some i' => .outbid i')
  else
    match holder with
    | none => return (⟨s.toMatching.pair i b.best, s.price⟩, .nobody)
    | some _ =>
      let taken := b.runnerUp.getD b.best
      let s' : PricedMatching α n m :=
        ⟨⟨s.columnOf.setIfInBounds i b.runnerUp, s.rowOf.setIfInBounds taken (some i)⟩, s.price⟩
      return (s', match s.rowOf[taken] with
        | none => .nobody
        | some i' => .deferred i')

/-- Lets the rows of a queue bid, one after the other, and returns those that have to wait in
the order in which they were displaced. At most `steps` bids are made; rows that are still
in the queue then wait as well. -/
def bidAll (cost : CostMatrix α n m) :
    Nat → PricedMatching α n m → List (Fin n) → List (Fin n) →
      Except SearchError (PricedMatching α n m × List (Fin n))
  | _, s, [], waiting => .ok (s, waiting.reverse)
  | 0, s, queue, waiting => .ok (s, waiting.reverse ++ queue)
  | steps + 1, s, i :: queue, waiting => do
    let (s, displaced) ← s.bid cost i
    match displaced with
    | .nobody => bidAll cost steps s queue waiting
    | .outbid i' => bidAll cost steps s (i' :: queue) waiting
    | .deferred i' => bidAll cost steps s queue (i' :: waiting)

/-- One phase of row reduction over the given free rows. Every bid lowers a price or shortens
the queue, so if no cost can be lowered more often than `levels` says, all bids are made. With
fewer levels the phase may be cut short; the rows that are left then wait as well. -/
def reduceRows (cost : CostMatrix α n m) (s : PricedMatching α n m) (free : List (Fin n)) :
    Except SearchError (PricedMatching α n m × List (Fin n)) :=
  bidAll cost (Cost.levels α * m + free.length) s free []

end PricedMatching

end LinearAssignment
