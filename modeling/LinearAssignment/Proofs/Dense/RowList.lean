import LinearAssignment.Dense.RowList
import LinearAssignment.Proofs.Dense.Termination

/-! Row reduction in one list loses no row and duplicates none, in any arithmetic. Between two bids
the rows that hold no column are those at the front of the list and those that are still to be read;
the front never overtakes the place that is read next, so writing to either leaves the other alone.
No column becomes free, no price rises, and only prices of columns that are taken change. -/
namespace LinearAssignment

namespace RowList

variable {n : ℕ} {l : RowList n} {i : Fin n}

structure IsApart (l : RowList n) : Prop where
  waiting_le : l.waiting ≤ l.next
  next_le : l.next ≤ l.stop

theorem unread_eq_cons (h : l.next < l.stop) :
    l.unread = l.rows.get ⟨l.next, h.trans_le l.stop_le⟩ :: l.read.unread := by
  have hlt : l.next < (l.rows.take l.stop).length := by
    rw [List.length_take]
    exact lt_min h (h.trans_le l.stop_le)
  rw [unread, List.drop_eq_getElem_cons hlt, List.getElem_take]
  rfl

theorem unread_of_not_lt (h : ¬ l.next < l.stop) : l.unread = [] := by
  rw [unread, List.drop_eq_nil_iff, List.length_take]
  omega

theorem kept_place_outbid (h : l.waiting ≤ l.next) : (l.read.place (.outbid i)).kept = l.kept :=
  List.take_set_of_le h

theorem unread_place_outbid (h : l.next < l.stop) :
    (l.read.place (.outbid i)).unread = i :: l.read.unread := by
  have hunread : ((l.rows.take l.stop).drop l.next).set 0 i = i :: l.read.unread := by
    rw [← unread, unread_eq_cons h, List.set_cons_zero]
  rw [← hunread]
  simp only [unread, place, read, Nat.add_sub_cancel, List.take_set, List.drop_set, lt_irrefl,
    if_false, Nat.sub_self]

theorem kept_place_deferred (h : l.waiting ≤ l.next) (hlt : l.next < l.stop) :
    (l.read.place (.deferred i)).kept = l.kept ++ [i] := by
  have hwaiting : l.waiting < (l.rows.set l.waiting i).length := by
    rw [List.length_set]
    exact h.trans_lt (hlt.trans_le l.stop_le)
  change (l.rows.set l.waiting i).take (l.waiting + 1) = l.rows.take l.waiting ++ [i]
  rw [List.take_succ_eq_append_getElem hwaiting, List.getElem_set_self, List.take_set_of_le le_rfl]

theorem unread_place_deferred (h : l.waiting ≤ l.next) :
    (l.read.place (.deferred i)).unread = l.read.unread := by
  change ((l.rows.set l.waiting i).take l.stop).drop (l.next + 1) = _
  rw [List.take_set, List.drop_set_of_lt (Nat.lt_succ_of_le h)]
  rfl

/-- The rows that wait and those that are still to bid are the ones before the bid, without the
bidder and with the row that it has displaced. -/
theorem place_perm (h : l.waiting ≤ l.next) (hlt : l.next < l.stop) (d : Displaced n) :
    ((l.read.place d).kept ++ (l.read.place d).unread).Perm
      (d.row?.toList ++ (l.kept ++ l.read.unread)) := by
  cases d with
  | nobody => exact .refl _
  | outbid i =>
    rw [kept_place_outbid h, unread_place_outbid hlt]
    exact List.perm_middle
  | deferred i =>
    rw [kept_place_deferred h hlt, unread_place_deferred h, List.append_assoc]
    exact List.perm_middle

theorem IsApart.place (h : l.IsApart) (hlt : l.next < l.stop) (d : Displaced n) :
    (l.read.place d).IsApart := by
  obtain ⟨hwaiting, hnext⟩ := h
  cases d <;> constructor <;> simp only [RowList.place, read] <;> omega

end RowList

variable {α : Type} [Cost α] {n m : ℕ} {cost : CostMatrix α n m}

namespace PricedMatching

variable {s t r : PricedMatching α n m}

/-- No column has become free, no price has risen, and the prices of free columns are as they
were. -/
structure DescendsTo (s t : PricedMatching α n m) : Prop where
  held : ∀ j : Fin m, t.rowOf[j] = none → s.rowOf[j] = none
  price_le : ∀ j : Fin m, Cost.atMost t.price[j] s.price[j] = true
  price_eq : ∀ j : Fin m, t.rowOf[j] = none → t.price[j] = s.price[j]

variable [Cost.Ordered α]

theorem DescendsTo.refl (h : ∀ j : Fin m, Cost.isNaN s.price[j] = false) : s.DescendsTo s :=
  ⟨fun _ h => h, fun j => Cost.Ordered.atMost_refl (h j), fun _ _ => rfl⟩

theorem DescendsTo.trans (h : s.DescendsTo t) (h' : t.DescendsTo r) : s.DescendsTo r where
  held j hj := h.held j (h'.held j hj)
  price_le j := Cost.Ordered.atMost_trans (h'.price_le j) (h.price_le j)
  price_eq j hj := (h'.price_eq j hj).trans (h.price_eq j (h'.held j hj))

/-- A bid lowers at most the price of the column that it takes. -/
theorem Takes.descendsTo {i : Fin n} {b : Bid α m} {j : Fin m}
    {r : PricedMatching α n m × Displaced n} (h : s.Takes i b j r)
    (hnumber : ∀ k : Fin m, Cost.isNaN s.price[k] = false) : s.DescendsTo r.1 := by
  have hrowOf : ∀ k : Fin m, r.1.rowOf[k] = none → k ≠ j ∧ s.rowOf[k] = none := by
    intro k hk
    rw [h.toMatching, Matching.rowOf_pair] at hk
    split at hk
    · exact nomatch hk
    · next hne => exact ⟨hne, hk⟩
  have hrefl := fun k => Cost.Ordered.atMost_refl (hnumber k)
  refine ⟨fun k hk => (hrowOf k hk).2, fun k => ?_, fun k hk => ?_⟩
  · rcases h.price_le with ⟨hprice, -⟩ | ⟨hlt, hkeep⟩
    · rw [hprice]
      exact hrefl k
    · by_cases hk : k = b.best
      · rw [hk]
        exact Cost.atMost_of_lt hlt
      · rw [hkeep k hk]
        exact hrefl k
  · rcases h.price with ⟨rfl, -, hprice⟩ | ⟨-, -, hprice, -⟩
    · rw [hprice, getElem_set_fin, if_neg (hrowOf k hk).1]
    · rw [hprice]

end PricedMatching

namespace RowList

open PricedMatching

variable {s t : PricedMatching α n m} {l : RowList n}

/-- The list between two bids: the rows that wait and those that are still to bid are the rows that
hold no column, each of them once. -/
structure Tracks (l : RowList n) (s : PricedMatching α n m) : Prop extends l.IsApart where
  consistent : s.Consistent
  price : ∀ j : Fin m, Cost.atMost s.price[j] 0 = true
  misses : s.Misses (l.kept ++ l.unread)

theorem tracks_start (hs : s.Consistent) (hprice : ∀ j : Fin m, Cost.atMost s.price[j] 0 = true)
    {rows : List (Fin n)} {count : ℕ} (hcount : count ≤ rows.length)
    (hmisses : s.Misses (rows.take count)) : (start rows count hcount).Tracks s :=
  ⟨⟨le_rfl, Nat.zero_le _⟩, hs, hprice, hmisses⟩

variable [Cost.Ordered α]

/-- The next row bids, and the row that it displaces is placed. -/
theorem Tracks.exists_bid (h : l.Tracks s) (hvalid : cost.hasInvalidEntry = false) (hnm : n ≤ m)
    (hlt : l.next < l.stop) :
    ∃ i b j r, s.bid cost (l.rows.get ⟨l.next, hlt.trans_le l.stop_le⟩) = .ok r ∧
      s.Takes i b j r ∧ (l.read.place r.2).Tracks r.1 ∧ s.DescendsTo r.1 := by
  have hmisses := h.misses
  rw [unread_eq_cons hlt] at hmisses
  generalize l.rows.get ⟨l.next, hlt.trans_le l.stop_le⟩ = i at hmisses
  have hmisses' := hmisses.perm List.perm_middle
  have hi : ¬ s.IsMatched i := (hmisses'.mem_iff i).mp List.mem_cons_self
  obtain ⟨b, hb⟩ := exists_ofRow hvalid h.price hnm i
  obtain ⟨j, r, hr, htakes⟩ := PricedMatching.exists_bid hb (rowOf_best_eq_none hnm hi hb)
  have hdescends := htakes.descendsTo fun k => (Cost.Ordered.isNaN_of_atMost (h.price k)).1
  refine ⟨i, b, j, r, hr, htakes, ⟨h.toIsApart.place hlt r.2, ?_, fun k => ?_, ?_⟩, hdescends⟩
  · rw [htakes.toMatching]
    exact h.consistent.pair hi j
  · exact Cost.Ordered.atMost_trans (hdescends.price_le k) (h.price k)
  · exact (htakes.misses h.consistent hmisses').perm (place_perm h.waiting_le hlt r.2).symm

omit [Cost.Ordered α] in
/-- A bid of the row at the head of a queue leaves the queue and the waiting rows as the list has
them. -/
theorem bidAll_place (h : l.waiting ≤ l.next) (hlt : l.next < l.stop)
    {r : PricedMatching α n m × Displaced n}
    (hr : s.bid cost (l.rows.get ⟨l.next, hlt.trans_le l.stop_le⟩) = .ok r) (steps : ℕ) :
    bidAll cost (steps + 1) s l.unread l.kept.reverse =
      bidAll cost steps r.1 (l.read.place r.2).unread (l.read.place r.2).kept.reverse := by
  obtain ⟨t, displaced⟩ := r
  rw [unread_eq_cons hlt]
  simp only [bidAll, hr, bind, Except.bind]
  cases displaced with
  | nobody => rfl
  | outbid i => rw [unread_place_outbid hlt, kept_place_outbid h]
  | deferred i =>
    rw [unread_place_deferred h, kept_place_deferred h hlt, List.reverse_append]
    rfl

theorem Tracks.exists_run (h : l.Tracks s) (hvalid : cost.hasInvalidEntry = false) (hnm : n ≤ m)
    (steps : ℕ) :
    ∃ t l', run cost steps s l = .ok (t, l') ∧ l'.Tracks t ∧ s.DescendsTo t ∧
      bidAll cost steps s l.unread l.kept.reverse = .ok (t, l'.kept ++ l'.unread) := by
  induction steps generalizing s l with
  | zero =>
    refine ⟨s, l, rfl, h, .refl fun k => (Cost.Ordered.isNaN_of_atMost (h.price k)).1, ?_⟩
    cases hunread : l.unread <;> simp [bidAll]
  | succ steps ih =>
    by_cases hlt : l.next < l.stop
    · obtain ⟨_, _, _, r, hr, -, htracks, hdescends⟩ := h.exists_bid hvalid hnm hlt
      obtain ⟨t, l', hrun, htracks', hdescends', hbidAll⟩ := ih htracks
      refine ⟨t, l', ?_, htracks', hdescends.trans hdescends', ?_⟩
      · simp only [run, dif_pos hlt, hr, bind, Except.bind]
        exact hrun
      · rw [bidAll_place h.waiting_le hlt hr, hbidAll]
    · refine ⟨s, l, ?_, h, .refl fun k => (Cost.Ordered.isNaN_of_atMost (h.price k)).1, ?_⟩
      · rw [run, dif_neg hlt]
      · rw [unread_of_not_lt hlt]
        simp [bidAll]

section ends

variable {rank : α → ℕ}

theorem Tracks.exists_run_ended (h : l.Tracks s) (hvalid : cost.hasInvalidEntry = false)
    (hnm : n ≤ m) (hrank : ∀ x y : α, Cost.atMost y 0 = true → x < y → rank x < rank y)
    (steps : ℕ) (hsteps : ∑ k : Fin m, rank s.price[k] + (l.stop - l.next) ≤ steps) :
    ∃ t l', run cost steps s l = .ok (t, l') ∧ ¬ l'.next < l'.stop := by
  -- Induction on the number of bids that are allowed. It exceeds what is left to bid for, the ranks
  -- of the prices and the rows that are still to be read, which every bid makes less.
  induction steps generalizing s l with
  | zero => exact ⟨s, l, rfl, by omega⟩
  | succ steps ih =>
    by_cases hlt : l.next < l.stop
    · obtain ⟨i, b, j, ⟨t, displaced⟩, hr, htakes, htracks, -⟩ := h.exists_bid hvalid hnm hlt
      obtain ⟨hle, hless⟩ : ∑ k : Fin m, rank t.price[k] ≤ ∑ k : Fin m, rank s.price[k] ∧ _ :=
        htakes.sum_rank_le fun k x => hrank x _ (h.price k)
      have hleft : ∑ k : Fin m, rank t.price[k] +
          ((l.read.place displaced).stop - (l.read.place displaced).next) ≤ steps := by
        cases displaced with
        | nobody =>
          simp only [place, read]
          omega
        | outbid r =>
          have hlower : ∑ k : Fin m, rank t.price[k] < ∑ k : Fin m, rank s.price[k] := hless r rfl
          simp only [place, read]
          omega
        | deferred r =>
          simp only [place, read]
          omega
      obtain ⟨t', l', hrun, hended⟩ := ih htracks hleft
      refine ⟨t', l', ?_, hended⟩
      simp only [run, dif_pos hlt, hr, bind, Except.bind]
      exact hrun
    · exact ⟨s, l, by rw [run, dif_neg hlt], hlt⟩

/-- Where no price can be lowered more often than the levels say, the loop ends, and a phase of row
reduction returns the rows that wait at its end. -/
theorem reduceRows_eq_kept (hvalid : cost.hasInvalidEntry = false) (hnm : n ≤ m)
    (hs : s.Consistent) (hprice : ∀ j : Fin m, Cost.atMost s.price[j] 0 = true)
    {rows : List (Fin n)} {count : ℕ} (hcount : count ≤ rows.length)
    (hmisses : s.Misses (rows.take count)) (hlevels : ∀ x, rank x ≤ Cost.levels α)
    (hrank : ∀ x y : α, Cost.atMost y 0 = true → x < y → rank x < rank y) :
    ∃ t l, run cost (Cost.levels α * m + count) s (start rows count hcount) = .ok (t, l) ∧
      ¬ l.next < l.stop ∧ s.reduceRows cost (rows.take count) = .ok (t, l.kept) := by
  have hstart := tracks_start hs hprice hcount hmisses
  have hsum : ∑ k : Fin m, rank s.price[k] ≤ Cost.levels α * m := by
    refine (Finset.sum_le_card_nsmul _ _ _ fun k _ => hlevels s.price[k]).trans_eq ?_
    rw [Finset.card_univ, Fintype.card_fin, smul_eq_mul, mul_comm]
  obtain ⟨t, l, hrun, hended⟩ := hstart.exists_run_ended hvalid hnm hrank _
    (Nat.add_le_add_right hsum count)
  obtain ⟨t', l', hrun', -, -, hbidAll⟩ :=
    hstart.exists_run hvalid hnm (Cost.levels α * m + count)
  obtain ⟨rfl, rfl⟩ := Prod.mk.inj (Except.ok.inj (hrun.symm.trans hrun'))
  rw [unread_of_not_lt hended, List.append_nil] at hbidAll
  refine ⟨t, l, hrun, hended, ?_⟩
  rw [reduceRows, List.length_take, min_eq_left hcount]
  exact hbidAll

end ends

/-- In any arithmetic, with valid entries, no more rows than columns and prices of which none is
positive, row reduction in one list loses no row and duplicates none. After any number of bids the
rows that wait, those that are still to bid and those that hold a column are all rows, each of them
once, and when the loop has ended the waiting rows are those that hold no column. Columns that were
held stay so, prices only fall, and those of free columns are unchanged. The phase that keeps queue
and waiting rows apart returns the same; where no price can be lowered more often than the levels
say, it ends and returns the waiting rows. -/
theorem run_start_misses (cost : CostMatrix α n m) (hvalid : cost.hasInvalidEntry = false)
    (hnm : n ≤ m) (s : PricedMatching α n m) (hs : s.Consistent)
    (hprice : ∀ j : Fin m, Cost.atMost s.price[j] 0 = true) (rows : List (Fin n)) (count : ℕ)
    (hcount : count ≤ rows.length) (hmisses : s.Misses (rows.take count)) :
    (∀ steps, ∃ t l, run cost steps s (start rows count hcount) = .ok (t, l) ∧
        l.waiting ≤ l.next ∧ t.Misses (l.rows.take l.waiting ++ (l.rows.take l.stop).drop l.next) ∧
        (¬ l.next < l.stop → t.Misses (l.rows.take l.waiting)) ∧
        t.Consistent ∧ s.DescendsTo t) ∧
      (∃ t l, run cost (Cost.levels α * m + count) s (start rows count hcount) = .ok (t, l) ∧
        s.reduceRows cost (rows.take count) = .ok (t, l.kept ++ l.unread)) ∧
      ∀ rank : α → ℕ, (∀ x, rank x ≤ Cost.levels α) →
        (∀ x y : α, Cost.atMost y 0 = true → x < y → rank x < rank y) →
        ∃ t l, run cost (Cost.levels α * m + count) s (start rows count hcount) = .ok (t, l) ∧
          ¬ l.next < l.stop ∧ s.reduceRows cost (rows.take count) = .ok (t, l.kept) := by
  have hstart := tracks_start hs hprice hcount hmisses
  refine ⟨fun steps => ?_, ?_, fun rank => reduceRows_eq_kept hvalid hnm hs hprice hcount hmisses⟩
  · obtain ⟨t, l, hrun, htracks, hdescends, -⟩ := hstart.exists_run hvalid hnm steps
    refine ⟨t, l, hrun, htracks.waiting_le, htracks.misses, fun hended => ?_, htracks.consistent,
      hdescends⟩
    have hall := htracks.misses
    rwa [unread_of_not_lt hended, List.append_nil] at hall
  · obtain ⟨t, l, hrun, -, -, hbidAll⟩ := hstart.exists_run hvalid hnm (Cost.levels α * m + count)
    refine ⟨t, l, hrun, ?_⟩
    rw [reduceRows, List.length_take, min_eq_left hcount]
    exact hbidAll

/-- The last of three rows drives the first one from its column, which drives the second one from
its and is then left to wait. -/
theorem run_start_crowded_misses :
    Dense.crowded.hasInvalidEntry = false ∧ (∀ j : Fin 3, Cost.atMost
        (PricedMatching.initial : PricedMatching (Binary .single) 3 3).price[j] 0 = true) ∧
      (∀ steps, ∃ t l, run Dense.crowded steps .initial (start [0, 1, 2] 3 le_rfl) = .ok (t, l) ∧
        l.waiting ≤ l.next ∧
        t.Misses (l.rows.take l.waiting ++ (l.rows.take l.stop).drop l.next)) ∧
      ∃ t l, run Dense.crowded (Cost.levels (Binary .single) * 3 + 3) .initial
          (start [0, 1, 2] 3 le_rfl) = .ok (t, l) ∧ ¬ l.next < l.stop ∧ l.kept = [0] ∧
        PricedMatching.initial.reduceRows Dense.crowded [0, 1, 2] = .ok (t, [0]) := by
  have hvalid : Dense.crowded.hasInvalidEntry = false := by decide +kernel
  have hprice : ∀ j : Fin 3, Cost.atMost
      (PricedMatching.initial : PricedMatching (Binary .single) 3 3).price[j] 0 = true := by
    decide +kernel
  have hmisses : (PricedMatching.initial : PricedMatching (Binary .single) 3 3).Misses
      (([0, 1, 2] : List (Fin 3)).take 3) := Matching.misses_empty
  obtain ⟨hall, -, hends⟩ := run_start_misses Dense.crowded hvalid le_rfl .initial
    Matching.consistent_empty hprice [0, 1, 2] 3 le_rfl hmisses
  refine ⟨hvalid, hprice, fun steps => ?_, ?_⟩
  · obtain ⟨t, l, hrun, hle, hmisses, -⟩ := hall steps
    exact ⟨t, l, hrun, hle, hmisses⟩
  · obtain ⟨t, l, hrun, hended, hreduce⟩ := hends Binary.headroom Binary.headroom_le
      fun x y hy hlt => (Binary.isPrice_iff.mpr hy).headroom_lt hlt
    have hkept : ((PricedMatching.initial.reduceRows Dense.crowded [0, 1, 2]).toOption.map
        Prod.snd) = some [0] := by decide +kernel
    change PricedMatching.initial.reduceRows Dense.crowded [0, 1, 2] = _ at hreduce
    rw [hreduce] at hkept
    have hkept : l.kept = [0] := Option.some.inj hkept
    exact ⟨t, l, hrun, hended, hkept, hkept ▸ hreduce⟩

end RowList

end LinearAssignment
