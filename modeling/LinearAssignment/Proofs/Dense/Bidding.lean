import LinearAssignment.Proofs.Dense.Rounding
import Mathlib.Data.Prod.Lex

/-! A phase of row reduction as a loop without any bound on its bids. Each bid lowers a price or
shortens the queue at unchanged prices, whatever the entries are, and there are only so many
floating-point numbers for a price to fall to, so the loop ends. -/
namespace LinearAssignment

section loop

variable {α : Type} [Cost α] {n m : ℕ}

/-- The state of a phase between two bids: the rows that are still to bid, and those that wait for
the next phase, the latest first. -/
structure Bidding (α : Type) (n m : ℕ) where
  state : PricedMatching α n m
  queue : List (Fin n)
  waiting : List (Fin n)

namespace Bidding

variable {cost : CostMatrix α n m} {b b' : Bidding α n m}

def start (s : PricedMatching α n m) (free : List (Fin n)) : Bidding α n m := ⟨s, free, []⟩

inductive Step (cost : CostMatrix α n m) : Bidding α n m → Bidding α n m → Prop
  | nobody {s s' i queue waiting} (bid : s.bid cost i = .ok (s', .nobody)) :
      Step cost ⟨s, i :: queue, waiting⟩ ⟨s', queue, waiting⟩
  | outbid {s s' i r queue waiting} (bid : s.bid cost i = .ok (s', .outbid r)) :
      Step cost ⟨s, i :: queue, waiting⟩ ⟨s', r :: queue, waiting⟩
  | deferred {s s' i r queue waiting} (bid : s.bid cost i = .ok (s', .deferred r)) :
      Step cost ⟨s, i :: queue, waiting⟩ ⟨s', queue, r :: waiting⟩

/-- The loop ends, with the state that it leaves and the rows that wait, or with a failure. -/
inductive Ends (cost : CostMatrix α n m) :
    Bidding α n m → Except SearchError (PricedMatching α n m × List (Fin n)) → Prop
  | done {s waiting} : Ends cost ⟨s, [], waiting⟩ (.ok (s, waiting.reverse))
  | failed {s i queue waiting e} (bid : s.bid cost i = .error e) :
      Ends cost ⟨s, i :: queue, waiting⟩ (.error e)
  | step {b b' r} (first : Step cost b b') (rest : Ends cost b' r) : Ends cost b r

theorem Step.exists_of_bid {s : PricedMatching α n m} {i : Fin n} {queue waiting : List (Fin n)}
    {r : PricedMatching α n m × Displaced n} (h : s.bid cost i = .ok r) :
    ∃ b', Step cost ⟨s, i :: queue, waiting⟩ b' := by
  obtain ⟨s', displaced⟩ := r
  cases displaced with
  | nobody => exact ⟨_, .nobody h⟩
  | outbid r => exact ⟨_, .outbid h⟩
  | deferred r => exact ⟨_, .deferred h⟩

theorem Step.unique {b'' : Bidding α n m} (h : Step cost b b') (h' : Step cost b b'') :
    b' = b'' := by
  cases h <;> cases h' <;> simp_all

/-- No loop ends in two ways. -/
theorem Ends.unique {r r' : Except SearchError (PricedMatching α n m × List (Fin n))}
    (h : Ends cost b r) (h' : Ends cost b r') : r = r' := by
  induction h with
  | done =>
    cases h' with
    | done => rfl
    | step first _ => cases first
  | failed bid =>
    cases h' with
    | failed bid' => rw [Except.error.inj (bid.symm.trans bid')]
    | step first _ => cases first <;> simp_all
  | step first _ ih =>
    cases h' with
    | done => cases first
    | failed bid' => cases first <;> simp_all
    | step first' rest' =>
      obtain rfl := first.unique first'
      exact ih rest'

/-- A loop that makes all its bids ends with what they leave. -/
theorem ends_of_bids {s t : PricedMatching α n m} {queue waiting free : List (Fin n)}
    (h : PricedMatching.Bids cost s queue waiting t free) :
    Ends cost ⟨s, queue, waiting⟩ (.ok (t, free)) := by
  induction h with
  | done => exact .done
  | nobody bid _ ih => exact .step (.nobody bid) ih
  | outbid bid _ ih => exact .step (.outbid bid) ih
  | deferred bid _ ih => exact .step (.deferred bid) ih

/-- What a step does: one price falls and no other changes, or no price changes and the queue has
lost its first row. -/
inductive Falls (b b' : Bidding α n m) : Prop
  | price (j : Fin m) (lower : b'.state.price[j] < b.state.price[j])
      (others : ∀ k : Fin m, k ≠ j → b'.state.price[k] = b.state.price[k])
      (queue : b'.queue.length ≤ b.queue.length)
  | queue (prices : b'.state.price = b.state.price) (shorter : ∃ i, b.queue = i :: b'.queue)

/-- A row bids again only if the price of its column has fallen. -/
theorem price_of_bid {s : PricedMatching α n m} {i : Fin n}
    {r : PricedMatching α n m × Displaced n} (h : s.bid cost i = .ok r) :
    (∃ j : Fin m, r.1.price[j] < s.price[j] ∧
      ∀ k : Fin m, k ≠ j → r.1.price[k] = s.price[k]) ∨
    r.1.price = s.price ∧ ∀ i', r.2 ≠ .outbid i' := by
  unfold PricedMatching.bid at h
  cases hb : Bid.ofRow cost[i] s.price s.isFree with
  | error e =>
    rw [hb] at h
    simp [bind, Except.bind] at h
  | ok b =>
    simp only [hb, bind, Except.bind, pure, Except.pure] at h
    split at h
    next hlt =>
      obtain rfl := Except.ok.inj h
      refine .inl ⟨b.best, ?_, fun k hk => ?_⟩
      · simpa only [getElem_set_fin, if_true] using hlt
      · simp only [getElem_set_fin, if_neg hk]
    next =>
      refine .inr ?_
      split at h <;> obtain rfl := Except.ok.inj h
      · simp
      · refine ⟨rfl, fun i' => ?_⟩
        simp only
        split <;> simp

theorem Step.falls (h : Step cost b b') : Falls b b' := by
  cases h with
  | nobody bid =>
    rcases price_of_bid bid with ⟨j, hlt, hothers⟩ | ⟨hprice, -⟩
    · exact .price j hlt hothers (Nat.le_succ _)
    · exact .queue hprice ⟨_, rfl⟩
  | @outbid _ _ _ r _ _ bid =>
    rcases price_of_bid bid with ⟨j, hlt, hothers⟩ | ⟨-, hnone⟩
    · exact .price j hlt hothers le_rfl
    · exact absurd rfl (hnone r)
  | deferred bid =>
    rcases price_of_bid bid with ⟨j, hlt, hothers⟩ | ⟨hprice, -⟩
    · exact .price j hlt hothers (Nat.le_succ _)
    · exact .queue hprice ⟨_, rfl⟩

structure IsSorted (b : Bidding α n m) : Prop where
  consistent : b.state.Consistent
  misses : b.state.Misses (b.queue ++ b.waiting)

omit [Cost α] in
theorem isSorted_start {s : PricedMatching α n m} {free : List (Fin n)} (hs : s.Consistent)
    (hfree : s.Misses free) : (start s free).IsSorted :=
  ⟨hs, by rwa [start, List.append_nil]⟩

theorem Step.isSorted (h : Step cost b b') (hb : b.IsSorted) (hnm : n ≤ m) : b'.IsSorted := by
  have htakes : ∀ {s i queue waiting} {r : PricedMatching α n m × Displaced n},
      (⟨s, i :: queue, waiting⟩ : Bidding α n m).IsSorted → s.bid cost i = .ok r →
      r.1.Consistent ∧ r.1.Misses (r.2.row?.toList ++ (queue ++ waiting)) := by
    intro s i queue waiting r hb hr
    have hi : ¬ s.IsMatched i := (hb.misses.mem_iff i).mp List.mem_cons_self
    obtain ⟨_, j, htakes⟩ := PricedMatching.takes_of_bid hnm hi hr
    refine ⟨?_, htakes.misses hb.consistent hb.misses⟩
    rw [htakes.toMatching]
    exact hb.consistent.pair hi j
  cases h with
  | nobody bid => exact ⟨(htakes hb bid).1, (htakes hb bid).2⟩
  | outbid bid => exact ⟨(htakes hb bid).1, (htakes hb bid).2⟩
  | @deferred _ s' _ r queue waiting bid =>
    have hall : s'.Misses (r :: (queue ++ waiting)) := (htakes hb bid).2
    exact ⟨(htakes hb bid).1, hall.perm List.perm_middle.symm⟩

/-- A phase that ends without failure returns exactly the rows that are without column. -/
theorem Ends.misses {r : Except SearchError (PricedMatching α n m × List (Fin n))}
    (h : Ends cost b r) (hb : b.IsSorted) (hnm : n ≤ m) {t : PricedMatching α n m}
    {free : List (Fin n)} (hr : r = .ok (t, free)) : t.Consistent ∧ t.Misses free := by
  induction h with
  | done =>
    obtain ⟨rfl, rfl⟩ := Prod.mk.inj (Except.ok.inj hr)
    exact ⟨hb.consistent, hb.misses.perm (List.reverse_perm _).symm⟩
  | failed => simp at hr
  | step first _ ih => exact ih (first.isSorted hb hnm) hr

end Bidding

end loop

namespace Bidding

variable {f : Format} {n m : ℕ} {cost : CostMatrix (Binary f) n m} {b b' : Bidding (Binary f) n m}

theorem Falls.isPriced (h : Falls b b') (hb : b.state.IsPriced) : b'.state.IsPriced := by
  intro k
  cases h with
  | price j lower others =>
    by_cases hk : k = j
    · exact hk ▸ (hb j).of_lt lower
    · rw [others k hk]
      exact hb k
  | queue prices =>
    rw [prices]
    exact hb k

/-- The headroom of the prices falls, or it stays and the queue gets shorter. -/
theorem Falls.headroom (h : Falls b b') (hb : b.state.IsPriced) :
    b'.state.headroom < b.state.headroom ∧ b'.queue.length ≤ b.queue.length ∨
      b'.state.headroom = b.state.headroom ∧ b'.queue.length < b.queue.length := by
  cases h with
  | price j lower others queue =>
    have hfall := (hb j).headroom_lt lower
    refine .inl ⟨Finset.sum_lt_sum (fun k _ => ?_) ⟨j, Finset.mem_univ j, hfall⟩, queue⟩
    by_cases hk : k = j
    · rw [hk]
      exact hfall.le
    · rw [others k hk]
  | queue prices shorter =>
    obtain ⟨i, hi⟩ := shorter
    refine .inr ⟨?_, ?_⟩
    · rw [PricedMatching.headroom, PricedMatching.headroom, prices]
    · rw [hi]
      exact Nat.lt_succ_self _

/-- What is left to a phase: the headroom of the prices, and then the rows of the queue. -/
def left (b : Bidding (Binary f) n m) : Lex (ℕ × ℕ) := toLex (b.state.headroom, b.queue.length)

theorem Falls.left_lt (h : Falls b b') (hb : b.state.IsPriced) : b'.left < b.left := by
  rw [left, left, Prod.Lex.toLex_lt_toLex]
  exact (h.headroom hb).imp_left And.left

theorem ends_bidAll (steps : ℕ) (s : PricedMatching (Binary f) n m)
    (queue waiting : List (Fin n)) (hs : s.IsPriced)
    (hsteps : s.headroom + queue.length ≤ steps) :
    Ends cost ⟨s, queue, waiting⟩ (s.bidAll cost steps queue waiting) := by
  -- Induction on the number of bids that are allowed. It exceeds headroom and queue together, which
  -- every bid makes less.
  induction steps generalizing s queue waiting with
  | zero =>
    obtain rfl : queue = [] := List.eq_nil_of_length_eq_zero (by omega)
    exact .done
  | succ steps ih =>
    cases queue with
    | nil => exact .done
    | cons i queue =>
      have hnext : ∀ {b'}, Step cost ⟨s, i :: queue, waiting⟩ b' →
          Ends cost ⟨s, i :: queue, waiting⟩
            (b'.state.bidAll cost steps b'.queue b'.waiting) := by
        intro b' hstep
        have hfalls := hstep.falls
        have hroom := hfalls.headroom hs
        simp only [List.length_cons] at hsteps hroom
        exact .step hstep (ih _ _ _ (hfalls.isPriced hs) (by omega))
      cases hbid : s.bid cost i with
      | error e =>
        simp only [PricedMatching.bidAll, hbid, bind, Except.bind]
        exact .failed hbid
      | ok r =>
        obtain ⟨t, displaced⟩ := r
        simp only [PricedMatching.bidAll, hbid, bind, Except.bind]
        cases displaced with
        | nobody => exact hnext (.nobody hbid)
        | outbid r => exact hnext (.outbid hbid)
        | deferred r => exact hnext (.deferred hbid)

/-- A phase of row reduction ends before it is cut short. -/
theorem ends_reduceRows {s : PricedMatching (Binary f) n m} (hs : s.IsPriced)
    (free : List (Fin n)) : Ends cost (start s free) (s.reduceRows cost free) :=
  ends_bidAll _ s free [] hs (Nat.add_le_add_right s.headroom_le _)

theorem Ends.isPriced {r : Except SearchError (PricedMatching (Binary f) n m × List (Fin n))}
    (h : Ends cost b r) (hb : b.state.IsPriced) {t : PricedMatching (Binary f) n m}
    {free : List (Fin n)} (hr : r = .ok (t, free)) : t.IsPriced := by
  induction h with
  | done =>
    obtain ⟨rfl, -⟩ := Prod.mk.inj (Except.ok.inj hr)
    exact hb
  | failed => simp at hr
  | step first _ ih => exact ih (first.falls.isPriced hb) hr

end Bidding

end LinearAssignment
