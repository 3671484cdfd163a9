import LinearAssignment.Proofs.Dense.RowReduction
import Mathlib.Algebra.BigOperators.Fin
import Mathlib.Algebra.Order.Archimedean.Basic
import Mathlib.Algebra.Order.BigOperators.Ring.Finset
import Mathlib.Data.Rat.Lemmas

/-! In exact arithmetic a phase of row reduction ends by itself. All prices are multiples of one
unit, since all costs are; a row that is outbid finds its column cheaper by a unit at least, and no
price falls below twice the largest number. -/
namespace LinearAssignment.PricedMatching

section run

variable {α : Type} [Cost α] {n m : ℕ}

/-- The rows of a queue bid one after the other, however often, until none is left. -/
inductive Bids (cost : CostMatrix α n m) :
    PricedMatching α n m → List (Fin n) → List (Fin n) →
      PricedMatching α n m → List (Fin n) → Prop where
  | done {s : PricedMatching α n m} {waiting : List (Fin n)} :
      Bids cost s [] waiting s waiting.reverse
  | nobody {s s' t : PricedMatching α n m} {i : Fin n} {queue waiting free : List (Fin n)} :
      s.bid cost i = .ok (s', .nobody) → Bids cost s' queue waiting t free →
      Bids cost s (i :: queue) waiting t free
  | outbid {s s' t : PricedMatching α n m} {i r : Fin n} {queue waiting free : List (Fin n)} :
      s.bid cost i = .ok (s', .outbid r) → Bids cost s' (r :: queue) waiting t free →
      Bids cost s (i :: queue) waiting t free
  | deferred {s s' t : PricedMatching α n m} {i r : Fin n} {queue waiting free : List (Fin n)} :
      s.bid cost i = .ok (s', .deferred r) → Bids cost s' queue (r :: waiting) t free →
      Bids cost s (i :: queue) waiting t free

variable {cost : CostMatrix α n m}

/-- If no bid raises the rank of the state and each that makes a row bid again lowers it, as many
bids are enough as the rank and the queue allow for. -/
theorem bidAll_bids (Keeps : ℕ → PricedMatching α n m → Prop)
    (hconsistent : ∀ k s, Keeps k s → s.Consistent)
    (hbid : ∀ k s i, Keeps k s → ¬ s.IsMatched i →
      ∃ b j r l, s.bid cost i = .ok r ∧ s.Takes i b j r ∧ Keeps l r.1 ∧ l ≤ k ∧
        ∀ i', r.2 = .outbid i' → l < k)
    (steps k : ℕ) (s : PricedMatching α n m) (queue waiting : List (Fin n)) (hs : Keeps k s)
    (hmisses : s.Misses (queue ++ waiting)) (hsteps : k + queue.length ≤ steps) :
    ∃ t free l, bidAll cost steps s queue waiting = .ok (t, free) ∧
      Bids cost s queue waiting t free ∧ Keeps l t ∧ l ≤ k ∧ t.Misses free := by
  induction steps generalizing k s queue waiting with
  | zero =>
    obtain rfl : queue = [] := List.eq_nil_of_length_eq_zero (by omega)
    refine ⟨s, waiting.reverse, k, by simp [bidAll], .done, hs, le_rfl, ?_⟩
    exact hmisses.perm (List.reverse_perm waiting).symm
  | succ steps ih =>
    cases queue with
    | nil =>
      exact ⟨s, waiting.reverse, k, rfl, .done, hs, le_rfl,
        hmisses.perm (List.reverse_perm waiting).symm⟩
    | cons i queue =>
      have hi : ¬ s.IsMatched i := (hmisses.mem_iff i).mp List.mem_cons_self
      obtain ⟨b, j, ⟨s', displaced⟩, l, hr, htakes, hl, hlk, hlt⟩ := hbid k s i hs hi
      have hmisses' := htakes.misses (hconsistent k s hs) hmisses
      simp only [List.length_cons] at hsteps
      simp only [bidAll, hr, bind, Except.bind]
      cases displaced with
      | nobody =>
        obtain ⟨t, free, l', ht, hbids, hl', hle, hfree⟩ :=
          ih l s' queue waiting hl hmisses' (by omega)
        exact ⟨t, free, l', ht, .nobody hr hbids, hl', hle.trans hlk, hfree⟩
      | outbid r =>
        -- The queue does not get shorter, but the rank gets lower.
        have hlt := hlt r rfl
        obtain ⟨t, free, l', ht, hbids, hl', hle, hfree⟩ :=
          ih l s' (r :: queue) waiting hl hmisses' (by rw [List.length_cons]; omega)
        exact ⟨t, free, l', ht, .outbid hr hbids, hl', hle.trans hlk, hfree⟩
      | deferred r =>
        have hall : s'.Misses (r :: (queue ++ waiting)) := hmisses'
        obtain ⟨t, free, l', ht, hbids, hl', hle, hfree⟩ :=
          ih l s' queue (r :: waiting) hl (hall.perm List.perm_middle.symm) (by omega)
        exact ⟨t, free, l', ht, .deferred hr hbids, hl', hle.trans hlk, hfree⟩

/-- Bids that are made without any bound are made with every bound that is not too small. -/
theorem Bids.exists_bidAll {s t : PricedMatching α n m} {queue waiting free : List (Fin n)}
    (h : Bids cost s queue waiting t free) :
    ∃ N, ∀ steps ≥ N, bidAll cost steps s queue waiting = .ok (t, free) := by
  induction h with
  | done => exact ⟨0, fun steps _ => by cases steps <;> rfl⟩
  | nobody hbid _ ih | outbid hbid _ ih | deferred hbid _ ih =>
    obtain ⟨N, hN⟩ := ih
    refine ⟨N + 1, fun steps hsteps => ?_⟩
    obtain ⟨k, rfl⟩ : ∃ k, steps = k + 1 := ⟨steps - 1, by omega⟩
    simp only [bidAll, hbid, bind, Except.bind]
    exact hN k (by omega)

end run

structure IsUnit {n m : ℕ} (d : ℕ) (bound : ℚ) (c : Fin n → Fin m → WithTop ℚ) : Prop where
  pos : 0 < d
  cost : ∀ {i j} {q : ℚ}, c i j = q → ∃ z : ℤ, d * q = z
  largest : ∃ z : ℤ, d * bound = z

theorem exists_int_of_den_dvd {d : ℕ} {q : ℚ} (h : q.den ∣ d) : ∃ z : ℤ, d * q = z := by
  obtain ⟨e, rfl⟩ := h
  refine ⟨e * q.num, ?_⟩
  rw [Nat.cast_mul, mul_assoc, mul_left_comm, Rat.den_mul_eq_num]
  push_cast
  rfl

theorem exists_nat_of_int {q : ℚ} {z : ℤ} (hz : q = z) (hq : 0 ≤ q) : ∃ k : ℕ, q = k := by
  subst hz
  obtain ⟨k, rfl⟩ := Int.eq_ofNat_of_zero_le (Int.cast_nonneg_iff.mp hq)
  exact ⟨k, Int.cast_natCast k⟩

theorem exists_isUnit {n m : ℕ} (bound : ℚ) (c : Fin n → Fin m → WithTop ℚ) :
    ∃ d, IsUnit d bound c := by
  refine ⟨bound.den * ∏ i, ∏ j, ((c i j).untopD 0).den, ?_, fun {i j q} hq => ?_, ?_⟩
  · exact Nat.mul_pos bound.den_pos
      (Finset.prod_pos fun i _ => Finset.prod_pos fun j _ => Rat.den_pos _)
  · apply exists_int_of_den_dvd
    have hj := Finset.dvd_prod_of_mem (fun j => ((c i j).untopD 0).den) (Finset.mem_univ j)
    have hi := Finset.dvd_prod_of_mem (fun i => ∏ j, ((c i j).untopD 0).den) (Finset.mem_univ i)
    simp only [hq, WithTop.untopD_coe] at hj
    exact (hj.trans hi).mul_left _
  · exact exists_int_of_den_dvd (Nat.dvd_mul_right _ _)

variable {bound : ℚ} {bids n m d : ℕ} {cost : CostMatrix (Exact bound bids) n m}
  {s : PricedMatching (Exact bound bids) n m} {c : Fin n → Fin m → WithTop ℚ} {u : Fin n → ℚ}
  {v : Fin m → ℚ} {i : Fin n} {j : Fin m} {f : Fin n → Fin m} {count : Fin m → ℕ} {base : ℚ}

/-- The prices lie so many units above minus twice the base. -/
def IsCount (d : ℕ) (base : ℚ) (v : Fin m → ℚ) (count : Fin m → ℕ) : Prop :=
  ∀ j, d * (v j + 2 * base) = count j

/-- A multiple of the unit that no cost exceeds, nor the largest number. -/
structure IsBase (d : ℕ) (bound base : ℚ) : Prop where
  le : bound ≤ base
  unit : ∃ z : ℤ, d * base = z

section bid

variable {b : Bid (Exact bound bids) m} {x y : ℚ}
  {r : PricedMatching (Exact bound bids) n m × Displaced n}

/-- The price that a bid leaves is again a number of units. -/
theorem IsCount.exists_bid (hcount : IsCount d base v count) (hd : IsUnit d bound c)
    (hbase : IsBase d bound base) (hf : IsFeasible bound c f)
    (hb : b.IsBetween (fun j => c i j + ((-v j : ℚ) : WithTop ℚ)) x y)
    (hj : c i j + ((-v j : ℚ) : WithTop ℚ) = x) :
    ∃ k : ℕ, d * (v j - (y - x) + 2 * base) = k := by
  have hcost : c i j = ((x + v j : ℚ) : WithTop ℚ) := by
    rw [coe_eq_add_coe_iff.mp hj.symm, sub_neg_eq_add]
  have hsmall := hf.small hcost
  obtain ⟨z, hz⟩ := hd.cost hcost
  obtain ⟨zb, hzb⟩ := hbase.unit
  -- The second place is the largest number, or an entry at a price that is a number of units.
  obtain ⟨zy, hzy⟩ : ∃ zy : ℤ, d * y = zy := by
    rcases hb.attained with rfl | ⟨k, hk⟩
    · exact hd.largest
    · obtain ⟨zk, hzk⟩ := hd.cost (coe_eq_add_coe_iff.mp hk.symm)
      refine ⟨zk - count k + 2 * zb, ?_⟩
      push_cast
      rw [← hzk, ← hcount k, ← hzb]
      ring
  have hn : (1 : ℚ) ≤ n := by
    have hpos : 0 < n := Nat.lt_of_le_of_lt (Nat.zero_le _) i.isLt
    exact_mod_cast hpos
  have hle : -bound ≤ x + v j := by
    have habs := neg_abs_le (x + v j)
    nlinarith [abs_nonneg (x + v j)]
  have hz' : (d : ℚ) * (v j - (y - x) + 2 * base) = (z - zy + 2 * zb : ℤ) := by
    push_cast
    rw [← hz, ← hzy, ← hzb]
    ring
  have hnonneg : 0 ≤ v j - (y - x) + 2 * base := by
    linarith [hb.le_largest, hbase.le]
  exact exists_nat_of_int hz' (mul_nonneg (Nat.cast_nonneg d) hnonneg)

/-- A bid does not raise the count of units, and it lowers it if it makes a row bid again. -/
theorem IsSound.exists_count (h : s.IsSound cost c u v) (hcount : IsCount d base v count)
    (hd : IsUnit d bound c) (hbase : IsBase d bound base) (hf : IsFeasible bound c f)
    (hb : b.IsBetween (fun j => c i j + ((-v j : ℚ) : WithTop ℚ)) x y) (hr : s.Takes i b j r) :
    ∃ count', IsCount d base (Function.update v j (v j - (y - x))) count' ∧
      ∑ k, count' k ≤ ∑ k, count k ∧
      ∀ i', r.2 = .outbid i' → ∑ k, count' k < ∑ k, count k := by
  obtain ⟨k, hk⟩ := hcount.exists_bid hd hbase hf hb (h.price_bid hb hr).2.1
  have hd' : (0 : ℚ) < d := by exact_mod_cast hd.pos
  have hcount' : IsCount d base (Function.update v j (v j - (y - x)))
      (Function.update count j k) := by
    intro l
    rw [Function.update_apply, Function.update_apply]
    split
    · exact hk
    · exact hcount l
  have hle : ∀ l, Function.update count j k l ≤ count l := by
    intro l
    have hcast : ((Function.update count j k l : ℕ) : ℚ) ≤ count l := by
      rw [← hcount' l, ← hcount l]
      exact mul_le_mul_of_nonneg_left (by linarith [update_le (v := v) (j := j) hb l]) hd'.le
    exact_mod_cast hcast
  refine ⟨_, hcount', Finset.sum_le_sum fun l _ => hle l, fun i' hi' => ?_⟩
  refine Finset.sum_lt_sum (fun l _ => hle l) ⟨j, Finset.mem_univ j, ?_⟩
  rcases hr.price with ⟨rfl, hlt, -⟩ | ⟨-, -, -, hnone⟩
  · rw [h.lowered_eq hb, h.price, Exact.ofTop_lt, WithTop.coe_lt_coe] at hlt
    have hcast : ((Function.update count b.best k b.best : ℕ) : ℚ) < count b.best := by
      rw [← hcount' b.best, ← hcount b.best, Function.update_self]
      exact mul_lt_mul_of_pos_left (by linarith) hd'
    exact_mod_cast hcast
  · exact absurd hi' (hnone i')

end bid

def IsCounted (d : ℕ) (base : ℚ) (cost : CostMatrix (Exact bound bids) n m)
    (c : Fin n → Fin m → WithTop ℚ) (k : ℕ) (s : PricedMatching (Exact bound bids) n m) : Prop :=
  ∃ u v count, s.IsSound cost c u v ∧ IsCount d base v count ∧ ∑ j, count j = k

theorem isCounted_initial {k : ℕ} (hk : d * (2 * base) = k)
    (hc : ∀ (i : Fin n) (j : Fin m), cost[i][j] = .ofTop (c i j)) :
    IsCounted d base cost c (k * m) (initial : PricedMatching (Exact bound bids) n m) := by
  refine ⟨_, _, fun _ => k, isSound_initial hc, fun j => ?_, ?_⟩
  · rw [zero_add, hk]
  · rw [Finset.sum_const, Finset.card_univ, Fintype.card_fin, smul_eq_mul, mul_comm]

/-- A phase of row reduction makes all bids if the bound on their number allows for the count of
units. -/
theorem IsCounted.exists_bids {k steps : ℕ} (hs : IsCounted d base cost c k s)
    (hd : IsUnit d bound c) (hbase : IsBase d bound base) (hf : IsFeasible bound c f)
    {free : List (Fin n)} (hfree : s.Misses free) (hk : k + free.length ≤ steps) :
    ∃ t free' l, bidAll cost steps s free [] = .ok (t, free') ∧ Bids cost s free [] t free' ∧
      IsCounted d base cost c l t ∧ l ≤ k ∧ t.Misses free' := by
  apply bidAll_bids (IsCounted d base cost c)
  · rintro k t ⟨u, v, count, ht, -, -⟩
    exact ht.consistent
  · rintro k t i ⟨u, v, count, ht, hcount, rfl⟩ hi
    obtain ⟨b, x, y, j, r, hr, htakes, hb⟩ := exists_isBetween_bid hf ht hi
    obtain ⟨count', hcount', hle, hlt⟩ := ht.exists_count hcount hd hbase hf hb htakes
    exact ⟨b, j, r, _, hr, htakes, ⟨_, _, count', ht.bid hi hb htakes, hcount', rfl⟩, hle, hlt⟩
  · exact hs
  · rwa [List.append_nil]
  · exact hk

/-- From some bound on the number of bids on, it is reached in no phase. -/
theorem exists_bids_of_le (hf : IsFeasible bound c f) :
    ∃ N, ∀ {bids : ℕ} {cost : CostMatrix (Exact bound bids) n m}, N ≤ bids →
      (∀ (i : Fin n) (j : Fin m), cost[i][j] = .ofTop (c i j)) →
      ∃ t free t' free', initial.reduceRows cost (List.finRange n) = .ok (t, free) ∧
        Bids cost initial (List.finRange n) [] t free ∧
        t.reduceRows cost free = .ok (t', free') ∧ Bids cost t free [] t' free' := by
  obtain ⟨d, hd⟩ := exists_isUnit bound c
  rcases Nat.eq_zero_or_pos n with rfl | hn
  · refine ⟨0, fun _ _ => ⟨initial, [], initial, [], ?_, .done, ?_, .done⟩⟩ <;>
      simp [reduceRows, bidAll]
  have hbound : 0 < bound := by
    obtain ⟨q, hq⟩ := WithTop.ne_top_iff_exists.mp (hf.finite ⟨0, hn⟩)
    refine lt_of_le_of_lt ?_ (hf.small hq.symm)
    positivity
  obtain ⟨z, hz⟩ := hd.largest
  obtain ⟨k, hk⟩ := exists_nat_of_int hz (by positivity)
  refine ⟨2 * k, fun {bids cost} hbids hc => ?_⟩
  have hbase : IsBase d bound bound := ⟨le_rfl, hd.largest⟩
  have hinitial : IsCounted d bound cost c (2 * k * m) initial := by
    refine isCounted_initial ?_ hc
    push_cast
    linarith
  have hle : 2 * k * m ≤ bids * m := Nat.mul_le_mul_right m hbids
  obtain ⟨t, free, l, ht, hbids₁, hs, hl, hfree⟩ := hinitial.exists_bids hd hbase hf
    Matching.misses_empty (Nat.add_le_add_right hle _)
  obtain ⟨t', free', -, ht', hbids₂, -⟩ := hs.exists_bids hd hbase hf hfree
    (Nat.add_le_add_right (hl.trans hle) _)
  exact ⟨t, free, t', free', ht, hbids₁, ht', hbids₂⟩

theorem IsSound.exists_isCounted (h : s.IsSound cost c u v) :
    ∃ d base k, IsUnit d bound c ∧ IsBase d bound base ∧ IsCounted d base cost c k s := by
  -- The prices are read as one row more of costs, so that one unit does for all of them.
  obtain ⟨d, hd⟩ := exists_isUnit bound
    (Fin.cons (fun j => (v j : WithTop ℚ)) c : Fin (n + 1) → Fin m → WithTop ℚ)
  obtain ⟨base, hbase⟩ := exists_nat_ge (|bound| + ∑ j, |v j|)
  have hle : ∀ j, -v j ≤ base := by
    intro j
    have hsum := Finset.single_le_sum (f := fun j => |v j|) (fun j _ => abs_nonneg (v j))
      (Finset.mem_univ j)
    linarith [neg_abs_le (v j), abs_nonneg bound]
  have hprice : ∀ j, ∃ k : ℕ, d * (v j + 2 * base) = k := by
    intro j
    obtain ⟨z, hz⟩ : ∃ z : ℤ, d * v j = z := @IsUnit.cost _ _ _ _ _ hd 0 j (v j) rfl
    have hcast : (d : ℚ) * (v j + 2 * base) = (z + 2 * (d * base) : ℤ) := by
      push_cast
      rw [← hz]
      ring
    have hnonneg : 0 ≤ v j + 2 * base := by
      have hbase : (0 : ℚ) ≤ base := Nat.cast_nonneg base
      linarith [hle j]
    exact exists_nat_of_int hcast (mul_nonneg (Nat.cast_nonneg d) hnonneg)
  choose count hcount using hprice
  refine ⟨d, base, _,
    ⟨hd.pos, fun {i _ _} hq => @IsUnit.cost _ _ _ _ _ hd i.succ _ _ hq, hd.largest⟩,
    ⟨?_, d * base, by push_cast; rfl⟩, u, v, count, h, hcount, rfl⟩
  have hsum : 0 ≤ ∑ j, |v j| := Finset.sum_nonneg fun j _ => abs_nonneg (v j)
  linarith [le_abs_self bound]

/-- A phase of row reduction that is not cut short ends, from whatever sound prices it starts. -/
theorem IsSound.exists_bids (h : s.IsSound cost c u v) (hf : IsFeasible bound c f)
    {free : List (Fin n)} (hfree : s.Misses free) :
    ∃ N t waiting, Bids cost s free [] t waiting ∧
      ∀ steps ≥ N, bidAll cost steps s free [] = .ok (t, waiting) := by
  obtain ⟨d, base, k, hd, hbase, hcounted⟩ := h.exists_isCounted
  obtain ⟨t, waiting, -, -, hbids, -⟩ := hcounted.exists_bids hd hbase hf hfree le_rfl
  obtain ⟨N, hN⟩ := hbids.exists_bidAll
  exact ⟨N, t, waiting, hbids, hN⟩

/-- Such a phase keeps the prices sound and returns the rows without column. -/
theorem IsSound.of_bids (h : s.IsSound cost c u v) (hf : IsFeasible bound c f)
    {free : List (Fin n)} (hfree : s.Misses free) {t : PricedMatching (Exact bound bids) n m}
    {waiting : List (Fin n)} (hbids : Bids cost s free [] t waiting) :
    ∃ u v, t.IsSound cost c u v ∧ t.Misses waiting := by
  obtain ⟨N, hN⟩ := hbids.exists_bidAll
  obtain ⟨t', free', u', v', ht', hsound, hmisses, -⟩ := bidAll_sound hf h hfree N
  obtain ⟨rfl, rfl⟩ := Prod.mk.inj (Except.ok.inj (ht'.symm.trans (hN N le_rfl)))
  exact ⟨u', v', hsound, hmisses⟩

end LinearAssignment.PricedMatching
