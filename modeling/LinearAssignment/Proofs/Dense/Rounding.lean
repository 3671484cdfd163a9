import LinearAssignment.Dense.Solver
import LinearAssignment.Proofs.Binary.Order
import LinearAssignment.Proofs.CompleteMatching
import LinearAssignment.Proofs.Dense.BidCount
import LinearAssignment.Proofs.Dense.Course

/-! The dense solver in floating-point arithmetic. Entries are neither NaN nor infinitely
profitable and prices never rise above zero, so no reduced cost of a bid is NaN. A row is outbid
only by a price that has really fallen, and there are only so many numbers to fall to. Distances
may be any numbers or none: an augmentation matches a row whatever they are. -/
namespace LinearAssignment

namespace PricedMatching

section rank

variable {α : Type} [Cost α] {n m : ℕ} {s : PricedMatching α n m} {i : Fin n} {j : Fin m}
  {b : Bid α m} {r : PricedMatching α n m × Displaced n} {rank : α → ℕ}

/-- Where a lower price has a lower rank, no bid raises the ranks of the prices in all, and one that
makes a row bid again lowers them. -/
theorem Takes.sum_rank_le (h : s.Takes i b j r)
    (hrank : ∀ (k : Fin m) (x : α), x < s.price[k] → rank x < rank s.price[k]) :
    ∑ k : Fin m, rank r.1.price[k] ≤ ∑ k : Fin m, rank s.price[k] ∧
      ∀ i', r.2 = .outbid i' → ∑ k : Fin m, rank r.1.price[k] < ∑ k : Fin m, rank s.price[k] := by
  rcases h.price_le with ⟨hprice, hnone⟩ | ⟨hlt, hkeep⟩
  · refine ⟨?_, fun i' hi' => absurd hi' (hnone i')⟩
    rw [hprice]
  · have hfall := hrank b.best _ hlt
    have hle : ∀ k : Fin m, rank r.1.price[k] ≤ rank s.price[k] := by
      intro k
      by_cases hk : k = b.best
      · rw [hk]
        exact hfall.le
      · rw [hkeep k hk]
    have hsum : ∑ k : Fin m, rank r.1.price[k] < ∑ k : Fin m, rank s.price[k] :=
      Finset.sum_lt_sum (fun k _ => hle k) ⟨b.best, Finset.mem_univ _, hfall⟩
    exact ⟨hsum.le, fun _ _ => hsum⟩

end rank

variable {f : Format} {n m : ℕ} {cost : CostMatrix (Binary f) n m}
  {s : PricedMatching (Binary f) n m} {i : Fin n} {j : Fin m} {b : Bid (Binary f) m}
  {r : PricedMatching (Binary f) n m × Displaced n}

def IsPriced (s : PricedMatching (Binary f) n m) : Prop := ∀ j : Fin m, Binary.IsPrice s.price[j]

theorem isPriced_initial : (initial : PricedMatching (Binary f) n m).IsPriced := fun j => by
  rw [initial, getElem_replicate_fin]
  exact Binary.isPrice_zero

def headroom (s : PricedMatching (Binary f) n m) : ℕ := ∑ j : Fin m, s.price[j].headroom

theorem headroom_le (s : PricedMatching (Binary f) n m) :
    s.headroom ≤ Cost.levels (Binary f) * m := by
  refine (Finset.sum_le_card_nsmul _ _ _ fun j _ => s.price[j].headroom_le).trans_eq ?_
  rw [Finset.card_univ, Fintype.card_fin, smul_eq_mul, mul_comm]

theorem Takes.isPriced (h : s.Takes i b j r) (hs : s.IsPriced) : r.1.IsPriced := by
  intro k
  rcases h.price_le with ⟨hprice, -⟩ | ⟨hlt, hkeep⟩
  · rw [hprice]
    exact hs k
  · by_cases hk : k = b.best
    · rw [hk]
      exact (hs b.best).of_lt hlt
    · rw [hkeep k hk]
      exact hs k

/-- No bid leaves more headroom, and one that makes a row bid again leaves less. -/
theorem Takes.headroom_le (h : s.Takes i b j r) (hs : s.IsPriced) :
    r.1.headroom ≤ s.headroom ∧ ∀ i', r.2 = .outbid i' → r.1.headroom < s.headroom :=
  h.sum_rank_le fun k _ hlt => (hs k).headroom_lt hlt

structure IsRunning (k : ℕ) (s : PricedMatching (Binary f) n m) : Prop where
  consistent : s.Consistent
  priced : s.IsPriced
  headroom : s.headroom = k

theorem IsRunning.exists_ofRow {k : ℕ} (hs : s.IsRunning k) (hvalid : cost.hasInvalidEntry = false)
    (hnm : n ≤ m) (hi : ¬ s.IsMatched i) :
    ∃ b, Bid.ofRow cost[i] s.price s.isFree = .ok b ∧
      (b.runnerUp = none → s.rowOf[b.best] = none) := by
  obtain ⟨b, hb⟩ :=
    PricedMatching.exists_ofRow hvalid (fun j => Binary.isPrice_iff.mp (hs.priced j)) hnm i
  exact ⟨b, hb, rowOf_best_eq_none hnm hi hb⟩

theorem IsRunning.exists_bid {k : ℕ} (hs : s.IsRunning k) (hvalid : cost.hasInvalidEntry = false)
    (hnm : n ≤ m) (hi : ¬ s.IsMatched i) :
    ∃ b j r l, s.bid cost i = .ok r ∧ s.Takes i b j r ∧ r.1.IsRunning l ∧ l ≤ k ∧
      ∀ i', r.2 = .outbid i' → l < k := by
  obtain ⟨b, hb, hnone⟩ := hs.exists_ofRow hvalid hnm hi
  obtain ⟨j, r, hr, htakes⟩ := PricedMatching.exists_bid hb hnone
  obtain ⟨hle, hlt⟩ := htakes.headroom_le hs.priced
  rw [hs.headroom] at hle hlt
  refine ⟨b, j, r, _, hr, htakes, ⟨?_, htakes.isPriced hs.priced, rfl⟩, hle, hlt⟩
  rw [htakes.toMatching]
  exact hs.consistent.pair hi j

end PricedMatching

/-- A phase of row reduction makes all its bids, and whatever row bids either has a runner-up or
finds its best column free. -/
structure PricedMatching.Reduces {α : Type} [Cost α] {n m : ℕ} (cost : CostMatrix α n m)
    (s : PricedMatching α n m) (free : List (Fin n)) (t : PricedMatching α n m)
    (free' : List (Fin n)) : Prop where
  outcome : s.reduceRows cost free = .ok (t, free')
  bids : Bids cost s free [] t free'
  runnerUp : ∀ x ∈ bidders cost (Cost.levels α * m + free.length) s free,
    ∃ b, Bid.ofRow cost[x.2] x.1.price x.1.isFree = .ok b ∧
      (b.runnerUp = none → x.1.rowOf[b.best] = none)

namespace PricedMatching

variable {f : Format} {n m : ℕ} {cost : CostMatrix (Binary f) n m}
  {s : PricedMatching (Binary f) n m}

theorem IsRunning.exists_reduces {k : ℕ} (hs : s.IsRunning k)
    (hvalid : cost.hasInvalidEntry = false) (hnm : n ≤ m) {free : List (Fin n)}
    (hfree : s.Misses free) :
    ∃ t free' l, s.Reduces cost free t free' ∧ t.IsRunning l ∧ t.Misses free' := by
  have hmisses : s.Misses (free ++ []) := by rwa [List.append_nil]
  have hsteps : k + free.length ≤ Cost.levels (Binary f) * m + free.length := by
    rw [← hs.headroom]
    exact Nat.add_le_add_right s.headroom_le _
  obtain ⟨t, free', l, ht, hbids, hrunning, -, hfree'⟩ := @bidAll_bids _ _ _ _ cost
    IsRunning (fun _ _ hs => hs.consistent) (fun _ _ _ hs hi => hs.exists_bid hvalid hnm hi)
    (Cost.levels (Binary f) * m + free.length) k s free [] hs hmisses hsteps
  refine ⟨t, free', l, ⟨ht, hbids, fun x hx => ?_⟩, hrunning, hfree'⟩
  obtain ⟨⟨k, hx⟩, hi⟩ := @bidders_keep _ _ _ _ cost (fun s => ∃ k, IsRunning k s)
    (fun _ ⟨_, hs⟩ => hs.consistent)
    (fun _ _ ⟨_, hs⟩ hi => by
      obtain ⟨b, j, r, l, hr, htakes, hrunning, -⟩ := hs.exists_bid hvalid hnm hi
      exact ⟨b, j, r, hr, htakes, l, hrunning⟩)
    _ s free [] ⟨_, hs⟩ hmisses _ hx
  exact hx.exists_ofRow hvalid hnm hi

end PricedMatching

namespace Dense

variable {f : Format} {n m : ℕ}

/-- The solver returns a matching of all rows whatever rounding does: no phase of row reduction and
no search fails, and the columns that no row has are free. -/
theorem solveWide_complete (cost : CostMatrix (Binary f) n m) (hnm : n ≤ m)
    (hvalid : cost.hasInvalidEntry = false) :
    ∃ t free t' free' s,
      PricedMatching.initial.Reduces cost (List.finRange n) t free ∧
      t.Reduces cost free t' free' ∧
      (solveWide cost).outcome = .ok s ∧
      ∃ g : Fin n → Fin m, Function.Injective g ∧ (∀ i : Fin n, s.columnOf[i] = some (g i)) ∧
        (∀ i : Fin n, s.rowOf[g i] = some i) ∧
        (∀ j : Fin m, s.rowOf[j] = none ↔ ∀ i, g i ≠ j) ∧
        (Finset.univ.filter fun j : Fin m => s.rowOf[j] = none).card = m - n := by
  have hinitial : (PricedMatching.initial : PricedMatching (Binary f) n m).IsRunning _ :=
    ⟨Matching.consistent_empty, PricedMatching.isPriced_initial, rfl⟩
  obtain ⟨t, free, k, ht, hrunning, hfree⟩ :=
    hinitial.exists_reduces hvalid hnm Matching.misses_empty
  obtain ⟨t', free', l, ht', hrunning', hfree'⟩ := hrunning.exists_reduces hvalid hnm hfree
  obtain ⟨p, hp, hconsistent, hmatched⟩ := @augmentAll_outcome _ _ _ _ cost
    (fun p => p.Consistent)
    (fun p i hp hi => PricedMatching.exists_augmentRow hp hi hnm)
    free'.length 1 free' t' hrunning'.consistent hfree'
  have hcomplete : (complete cost).outcome = .ok p :=
    (outcome_complete ht.outcome ht'.outcome).trans hp
  have hall : p.toMatching.IsComplete := ⟨hconsistent, hmatched⟩
  obtain ⟨g, hinjective, hg⟩ := hall.exists_columns
  exact ⟨t, free, t', free', _, ht, ht', Run.outcome_bind hcomplete _, g, hinjective, hg,
    fun i => hall.columnOf_iff.mp (hg i), hall.rowOf_eq_none_iff hg, hall.card_free⟩

def extreme : CostMatrix (Binary .single) 2 3 :=
  .ofFn fun i j => if j = 0 then .infinity else if i.val = j.val then .largest else -.largest

theorem solveWide_extreme_complete :
    ∃ s, (solveWide extreme).outcome = .ok s ∧
      (Finset.univ.filter fun j : Fin 3 => s.rowOf[j] = none).card = 1 := by
  obtain ⟨-, -, -, -, s, -, -, hs, -, -, -, -, -, hcard⟩ :=
    solveWide_complete extreme (by decide) (by decide +kernel)
  exact ⟨s, hs, hcard⟩

end Dense

end LinearAssignment
