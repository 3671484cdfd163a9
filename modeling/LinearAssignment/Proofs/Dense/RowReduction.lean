import LinearAssignment.Proofs.Dense.Bid
import Mathlib.Algebra.Order.Field.Rat
import Mathlib.Data.Finset.Card
import Mathlib.Tactic.FieldSimp
import Mathlib.Tactic.Linarith

/-! Row reduction keeps track of the rows without column in any arithmetic. In exact arithmetic the
prices that it leaves support the matching, and they never rise. -/
namespace LinearAssignment

namespace Matching

variable {n m : ℕ} {s : Matching n m} {i : Fin n} {j : Fin m} {l : List (Fin n)}

structure Misses (s : Matching n m) (l : List (Fin n)) : Prop where
  nodup : l.Nodup
  mem_iff : ∀ r, r ∈ l ↔ ¬ s.IsMatched r

theorem Misses.perm {l' : List (Fin n)} (h : s.Misses l) (hl : l.Perm l') : s.Misses l' :=
  ⟨hl.nodup_iff.mp h.nodup, fun r => hl.mem_iff.symm.trans (h.mem_iff r)⟩

theorem misses_empty : (empty : Matching n m).Misses (List.finRange n) :=
  ⟨List.nodup_finRange n, fun r => iff_of_true (List.mem_finRange r) (not_isMatched_empty r)⟩

/-- When a row takes a column, the former holder of the column is missing instead. -/
theorem Misses.pair (h : s.Misses (i :: l)) (hs : s.Consistent) (j : Fin m) :
    (s.pair i j).Misses (s.rowOf[j].toList ++ l) := by
  have hi : ¬ s.IsMatched i := (h.mem_iff i).mp List.mem_cons_self
  obtain ⟨hil, hnodup⟩ := List.nodup_cons.mp h.nodup
  have hheld : ∀ r, s.rowOf[j] = some r → r ≠ i ∧ r ∉ l := by
    intro r hr
    refine ⟨fun he => hi ⟨j, he ▸ hr⟩, fun hmem => ?_⟩
    exact (h.mem_iff r).mp (List.mem_cons_of_mem _ hmem) ⟨j, hr⟩
  constructor
  · cases hj : s.rowOf[j] with
    | none => exact hnodup
    | some r => exact List.nodup_cons.mpr ⟨(hheld r hj).2, hnodup⟩
  · intro r
    have hmem := h.mem_iff r
    rw [List.mem_cons] at hmem
    rw [isMatched_pair hs, List.mem_append, Option.mem_toList, not_or, not_and_or, not_not]
    by_cases hri : r = i
    · refine iff_of_false (fun hmem => ?_) fun hne => hne.1 hri
      rcases hmem with hj | hl
      · exact (hheld r hj).1 hri
      · exact hil (hri ▸ hl)
    · rw [← hmem]
      simp only [hri, false_or, not_false_eq_true, true_and]
      exact or_comm

/-- When a row has been matched and no other has been displaced, the others are missing. -/
theorem Misses.tail {t : Matching n m} (h : s.Misses (i :: l))
    (hmatched : ∀ r, t.IsMatched r ↔ r = i ∨ s.IsMatched r) : t.Misses l := by
  obtain ⟨hil, hnodup⟩ := List.nodup_cons.mp h.nodup
  refine ⟨hnodup, fun r => ?_⟩
  rw [hmatched, not_or, ← h.mem_iff, List.mem_cons]
  by_cases hr : r = i
  · simp [hr, hil]
  · simp [hr]

section chain

variable {c : Fin n → Fin m → WithTop ℚ} {u : Fin n → ℚ} {v : Fin m → ℚ} {f : Fin n → Fin m}
  {C : ℚ}

/-- The holder of the column that an assignment gives to another row would pay at most `2 * C` more
for its own. -/
theorem IsSupported.neg_le_of_held (h : s.IsSupported c u v)
    (hC : ∀ {r k} {q : ℚ}, c r k = q → |q| ≤ C) (hfinite : ∀ r, c r (f r) ≠ ⊤) {r : Fin n}
    (hr : s.rowOf[j] = some r) : -v j ≤ -v (f r) + 2 * C := by
  obtain ⟨q, hq⟩ := WithTop.ne_top_iff_exists.mp (hfinite r)
  have htight := hC (h.tight hr)
  have hown := hC hq.symm
  have hbelow := h.below ⟨j, hr⟩ (f r)
  rw [← hq, WithTop.coe_le_coe] at hbelow
  linarith [neg_le_abs (u r + v j), le_abs_self q]

theorem IsSupported.neg_le_chain (h : s.IsSupported c u v) (hs : s.Consistent)
    (hv : s.FreeAtZero v) (hi : ¬ s.IsMatched i) (hf : Function.Injective f)
    (hC : ∀ {r k} {q : ℚ}, c r k = q → |q| ≤ C) (hfinite : ∀ r, c r (f r) ≠ ⊤)
    (T : Finset (Fin n)) (r : Fin n) (hr : r ∉ T)
    (hback : ∀ x ∈ insert r T, x = i ∨ ∃ t ∈ T, s.rowOf[f t] = some x) :
    -v (f r) ≤ 2 * C * (n - 1 - T.card) := by
  have hC₀ : 0 ≤ C := by
    obtain ⟨q, hq⟩ := WithTop.ne_top_iff_exists.mp (hfinite r)
    exact (abs_nonneg q).trans (hC hq.symm)
  -- Induction along the chain of holders that starts at a row without column: rows `T` have been
  -- passed, each but the first as the holder of the column of another one, so none is met again.
  induction hleft : n - T.card generalizing T r with
  | zero =>
    have hcard := Finset.card_le_univ (insert r T)
    rw [Finset.card_insert_of_notMem hr, Fintype.card_fin] at hcard
    omega
  | succ left ih =>
    have hcard := Finset.card_le_univ (insert r T)
    rw [Finset.card_insert_of_notMem hr, Fintype.card_fin] at hcard
    have hcard' : ((T.card : ℚ) + 1) ≤ n := by exact_mod_cast hcard
    cases hheld : s.rowOf[f r] with
    | none =>
      rw [hv.free _ hheld, neg_zero]
      exact mul_nonneg (by linarith) (by linarith)
    | some r' =>
      have hr' : r' ∉ insert r T := by
        intro hmem
        rcases hback r' hmem with rfl | ⟨t, ht, ht'⟩
        · exact hi ⟨f r, hheld⟩
        · exact hr (hf (hs.eq_of_rowOf ht' hheld) ▸ ht)
      have hnext := ih (insert r T) r' hr' (fun x hx => ?_) ?_
      · rw [Finset.card_insert_of_notMem hr] at hnext
        push_cast at hnext
        linarith [h.neg_le_of_held hC hfinite hheld]
      · rcases Finset.mem_insert.mp hx with rfl | hx
        · exact .inr ⟨r, Finset.mem_insert_self r T, hheld⟩
        · exact (hback x hx).imp_right fun ⟨t, ht, ht'⟩ => ⟨t, Finset.mem_insert_of_mem ht, ht'⟩
      · rw [Finset.card_insert_of_notMem hr]
        omega

end chain

end Matching

namespace PricedMatching

section run

variable {α : Type} [Cost α] {n m : ℕ} {cost : CostMatrix α n m}

/-- Only the only row has no runner-up, and its best column is free. -/
theorem rowOf_best_eq_none {s : PricedMatching α n m} {i : Fin n} {b : Bid α m} (hnm : n ≤ m)
    (hi : ¬ s.IsMatched i) (hb : Bid.ofRow cost[i] s.price s.isFree = .ok b)
    (hno : b.runnerUp = none) : s.rowOf[b.best] = none := by
  have hm := Bid.eq_one_of_ofRow hb hno
  refine Option.eq_none_iff_forall_ne_some.mpr fun r hr => hi ?_
  obtain rfl : r = i := Fin.ext (by omega)
  exact ⟨b.best, hr⟩

theorem takes_of_bid {s : PricedMatching α n m} {i : Fin n}
    {r : PricedMatching α n m × Displaced n} (hnm : n ≤ m) (hi : ¬ s.IsMatched i)
    (h : s.bid cost i = .ok r) : ∃ b j, s.Takes i b j r := by
  cases hb : Bid.ofRow cost[i] s.price s.isFree with
  | error e =>
    rw [bid, hb] at h
    simp [bind, Except.bind] at h
  | ok b =>
    obtain ⟨j, r', hr', htakes⟩ := exists_bid hb (rowOf_best_eq_none hnm hi hb)
    obtain rfl := Except.ok.inj (hr'.symm.trans h)
    exact ⟨b, j, htakes⟩

/-- The row that a bid has displaced takes the place of the bidder among the missing ones. -/
theorem Takes.misses {s : PricedMatching α n m} {i : Fin n} {b : Bid α m} {j : Fin m}
    {r : PricedMatching α n m × Displaced n} {l : List (Fin n)} (h : s.Takes i b j r)
    (hs : s.Consistent) (hl : s.Misses (i :: l)) : r.1.Misses (r.2.row?.toList ++ l) := by
  rw [h.toMatching, h.displaced]
  exact hl.pair hs j

/-- What each bid keeps, all bids keep, and they lose no row. -/
theorem bidAll_outcome (Keeps : PricedMatching α n m → Prop)
    (hconsistent : ∀ s, Keeps s → s.Consistent)
    (hbid : ∀ s i, Keeps s → ¬ s.IsMatched i →
      ∃ b j r, s.bid cost i = .ok r ∧ s.Takes i b j r ∧ Keeps r.1)
    (steps : ℕ) (s : PricedMatching α n m) (queue waiting : List (Fin n)) (hs : Keeps s)
    (hmisses : s.Misses (queue ++ waiting)) :
    ∃ t free, bidAll cost steps s queue waiting = .ok (t, free) ∧ Keeps t ∧ t.Misses free := by
  induction steps generalizing s queue waiting with
  | zero =>
    refine ⟨s, waiting.reverse ++ queue, ?_, hs, hmisses.perm ?_⟩
    · cases queue with
      | nil => simp [bidAll]
      | cons i queue => rfl
    · exact List.perm_append_comm.trans ((List.reverse_perm waiting).symm.append_right queue)
  | succ steps ih =>
    cases queue with
    | nil => exact ⟨s, waiting.reverse, rfl, hs, hmisses.perm (List.reverse_perm waiting).symm⟩
    | cons i queue =>
      have hi : ¬ s.IsMatched i := (hmisses.mem_iff i).mp List.mem_cons_self
      obtain ⟨b, j, ⟨t, displaced⟩, hr, htakes, ht⟩ := hbid s i hs hi
      have hmisses' := htakes.misses (hconsistent s hs) hmisses
      simp only [bidAll, hr, bind, Except.bind]
      cases displaced with
      | nobody => exact ih t queue waiting ht hmisses'
      | outbid r => exact ih t (r :: queue) waiting ht hmisses'
      | deferred r =>
        have hall : t.Misses (r :: (queue ++ waiting)) := hmisses'
        exact ih t queue (r :: waiting) ht (hall.perm List.perm_middle.symm)

end run

variable {bound : ℚ} {bids n m : ℕ} {cost : CostMatrix (Exact bound bids) n m}
  {s : PricedMatching (Exact bound bids) n m} {c : Fin n → Fin m → WithTop ℚ} {u : Fin n → ℚ}
  {v : Fin m → ℚ} {i : Fin n} {j : Fin m}

structure IsSound (cost : CostMatrix (Exact bound bids) n m) (c : Fin n → Fin m → WithTop ℚ)
    (u : Fin n → ℚ) (v : Fin m → ℚ) (s : PricedMatching (Exact bound bids) n m) : Prop where
  cost : ∀ (i : Fin n) (j : Fin m), cost[i][j] = .ofTop (c i j)
  price : ∀ j : Fin m, s.price[j] = .ofTop (v j)
  consistent : s.Consistent
  supported : s.IsSupported c u v
  freeAtZero : s.FreeAtZero v

theorem isSound_initial (hc : ∀ (i : Fin n) (j : Fin m), cost[i][j] = .ofTop (c i j)) :
    IsSound cost c (fun _ => 0) (fun _ => 0)
      (initial : PricedMatching (Exact bound bids) n m) where
  cost := hc
  price j := getElem_replicate_fin _ j
  consistent := Matching.consistent_empty
  supported := Matching.isSupported_empty _ _
  freeAtZero := ⟨fun _ => le_rfl, fun _ _ => rfl⟩

theorem IsSound.reduced_eq (h : s.IsSound cost c u v) (i : Fin n) (j : Fin m) :
    (Bid.reduced cost[i] s.price)[j] = .ofTop (c i j + ((-v j : ℚ) : WithTop ℚ)) := by
  have hcost := h.cost i j
  have hprice := h.price j
  simp only [Bid.reduced, getElem_zipWith_fin, hcost, hprice, Exact.ofTop_sub]

section bid

variable {b : Bid (Exact bound bids) m} {x y : ℚ}
  {r : PricedMatching (Exact bound bids) n m × Displaced n}

theorem IsSound.lowered_eq (h : s.IsSound cost c u v) {w : Fin m → WithTop ℚ}
    (hb : b.IsBetween w x y) :
    s.lowered b = .ofTop ((v b.best - (y - x) : ℚ) : WithTop ℚ) := by
  rw [lowered, h.price, hb.second, hb.least, Exact.ofTop_coe_sub, Exact.ofTop_coe_sub]

theorem update_le {w : Fin m → WithTop ℚ} (hb : b.IsBetween w x y) (k : Fin m) :
    Function.update v j (v j - (y - x)) k ≤ v k := by
  rw [Function.update_apply]
  split
  next hk =>
    rw [hk]
    linarith [hb.le]
  next => exact le_rfl

/-- The prices after a bid: the column that is taken falls by what the second place is dearer. -/
theorem IsSound.price_bid (h : s.IsSound cost c u v) {w : Fin m → WithTop ℚ}
    (hb : b.IsBetween w x y) (hr : s.Takes i b j r) :
    (j = b.best ∨ x = y) ∧ w j = x ∧
      ∀ k : Fin m, r.1.price[k] = .ofTop (Function.update v j (v j - (y - x)) k) := by
  have hlowered := h.lowered_eq hb
  rcases hr.price with ⟨rfl, -, hprice⟩ | ⟨hj, hlt, hprice, -⟩
  · refine ⟨.inl rfl, hb.best, fun k => ?_⟩
    rw [hprice, getElem_set_fin, Function.update_apply]
    split
    · exact hlowered
    · exact h.price k
  · have hxy : x = y := by
      rw [hlowered, h.price, Exact.ofTop_lt, WithTop.coe_lt_coe] at hlt
      linarith [hb.le]
    refine ⟨.inr hxy, ?_, fun k => ?_⟩
    · rcases hj with rfl | hj
      · exact hb.best
      · exact hb.runnerUp hj hxy
    · rw [hprice, hxy, sub_self, sub_zero, Function.update_eq_self]
      exact h.price k

/-- A bid leaves prices at which every matched row is content, the bidder included. -/
theorem IsSound.bid (h : s.IsSound cost c u v) (hi : ¬ s.IsMatched i)
    (hb : b.IsBetween (fun j => c i j + ((-v j : ℚ) : WithTop ℚ)) x y) (hr : s.Takes i b j r) :
    r.1.IsSound cost c (Function.update u i y) (Function.update v j (v j - (y - x))) := by
  obtain ⟨hbest, hj, hprice⟩ := h.price_bid hb hr
  have hle := update_le (v := v) (j := j) hb
  have hkeep : ∀ k, k ≠ j → Function.update v j (v j - (y - x)) k = v k :=
    fun k hk => Function.update_of_ne hk _ _
  have htight : c i j = ((y + Function.update v j (v j - (y - x)) j : ℚ) : WithTop ℚ) := by
    rw [coe_eq_add_coe_iff.mp hj.symm, Function.update_self]
    congr 1
    ring
  have hbelow : ∀ k, ((y + Function.update v j (v j - (y - x)) k : ℚ) : WithTop ℚ) ≤ c i k := by
    intro k
    by_cases hk : k = j
    · rw [hk, ← htight]
    · rw [hkeep k hk]
      have hother : ((y : ℚ) : WithTop ℚ) ≤ c i k + ((-v k : ℚ) : WithTop ℚ) := by
        -- The best column is passed over only if the second place is as cheap.
        by_cases hkb : k = b.best
        · have hxy : x = y := hbest.resolve_left fun he => hk (hkb.trans he.symm)
          rw [hkb, ← hxy]
          exact hb.best.ge
        · exact hb.others k hkb
      rw [coe_le_add_coe_iff, sub_neg_eq_add] at hother
      exact hother
  refine ⟨h.cost, hprice, ?_, ?_, ?_⟩
  · rw [hr.toMatching]
    exact h.consistent.pair hi j
  · rw [hr.toMatching]
    exact h.supported.pair h.consistent hi hle hkeep hbelow htight
  · rw [hr.toMatching]
    exact h.freeAtZero.pair hle hkeep

end bid

/-- A row without column that has a reduced cost below the largest number bids between the smallest
two of its reduced costs. -/
theorem IsSound.exists_bid_of_lt (h : s.IsSound cost c u v) (hnm : n ≤ m) (hi : ¬ s.IsMatched i)
    (hj : c i j + ((-v j : ℚ) : WithTop ℚ) < (bound : WithTop ℚ)) :
    ∃ b x y j r, Bid.ofRow cost[i] s.price s.isFree = .ok b ∧ s.bid cost i = .ok r ∧
      s.Takes i b j r ∧ b.IsBetween (fun j => c i j + ((-v j : ℚ) : WithTop ℚ)) x y := by
  obtain ⟨b, x, y, hb, hbetween⟩ := Bid.exists_isBetween s.isFree (h.reduced_eq i) hj
  obtain ⟨k, r, hr, htakes⟩ := exists_bid hb (rowOf_best_eq_none hnm hi hb)
  exact ⟨b, x, y, k, r, hb, hr, htakes, hbetween⟩

/-- The finite costs are small against the largest number, and the rows have an assignment. -/
structure IsFeasible (bound : ℚ) (c : Fin n → Fin m → WithTop ℚ) (f : Fin n → Fin m) : Prop where
  injective : Function.Injective f
  finite : ∀ r, c r (f r) ≠ ⊤
  small : ∀ {r k} {q : ℚ}, c r k = q → 2 * n * |q| < bound

variable {f : Fin n → Fin m}

/-- A row without column has a reduced cost below the largest number. -/
theorem IsFeasible.reduced_lt (hf : IsFeasible bound c f) (h : s.IsSound cost c u v)
    (hi : ¬ s.IsMatched i) : c i (f i) + ((-v (f i) : ℚ) : WithTop ℚ) < (bound : WithTop ℚ) := by
  have hn : (0 : ℚ) < n := by
    have hpos : 0 < n := Nat.lt_of_le_of_lt (Nat.zero_le _) i.isLt
    exact_mod_cast hpos
  obtain ⟨C, hC⟩ : ∃ C : ℚ, 2 * n * C = bound := ⟨bound / (2 * n), by field_simp⟩
  have hsmall : ∀ {r k} {q : ℚ}, c r k = q → |q| < C := fun hq => by
    have hlt := hf.small hq
    rw [← hC] at hlt
    exact lt_of_mul_lt_mul_left hlt (by linarith)
  have hchain := h.supported.neg_le_chain h.consistent h.freeAtZero hi hf.injective
    (fun hq => (hsmall hq).le) hf.finite ∅ i (Finset.notMem_empty i) fun x hx => by simpa using hx
  simp only [Finset.card_empty, Nat.cast_zero, sub_zero] at hchain
  obtain ⟨q, hq⟩ := WithTop.ne_top_iff_exists.mp (hf.finite i)
  rw [← hq, ← WithTop.coe_add, WithTop.coe_lt_coe]
  linarith [hsmall hq.symm, le_abs_self q, abs_nonneg q]

theorem exists_isBetween_bid (hf : IsFeasible bound c f) (h : s.IsSound cost c u v)
    (hi : ¬ s.IsMatched i) :
    ∃ b x y j r, s.bid cost i = .ok r ∧ s.Takes i b j r ∧
      b.IsBetween (fun j => c i j + ((-v j : ℚ) : WithTop ℚ)) x y := by
  have hnm : n ≤ m := by
    simpa only [Fintype.card_fin] using Fintype.card_le_of_injective f hf.injective
  obtain ⟨b, x, y, j, r, -, hbid⟩ := h.exists_bid_of_lt hnm hi (hf.reduced_lt h hi)
  exact ⟨b, x, y, j, r, hbid⟩

/-- Bids, however many are made, leave sound prices, none of which has risen, and return the rows
that are without column. -/
theorem bidAll_sound (hf : IsFeasible bound c f) (h : s.IsSound cost c u v)
    {free : List (Fin n)} (hfree : s.Misses free) (steps : ℕ) :
    ∃ t free' u' v', bidAll cost steps s free [] = .ok (t, free') ∧ t.IsSound cost c u' v' ∧
      t.Misses free' ∧ ∀ k, v' k ≤ v k := by
  obtain ⟨t, free', ht, ⟨u', v', hsound, hle⟩, hmisses⟩ := bidAll_outcome
    (fun t => ∃ u' v', t.IsSound cost c u' v' ∧ ∀ k, v' k ≤ v k)
    (fun t ⟨_, _, ht, _⟩ => ht.consistent)
    (fun t r ⟨_, _, ht, hle⟩ hr => by
      obtain ⟨b, x, y, j, t', ht', htakes, hbetween⟩ := exists_isBetween_bid hf ht hr
      exact ⟨b, j, t', ht', htakes, _, _, ht.bid hr hbetween htakes,
        fun k => (update_le hbetween k).trans (hle k)⟩)
    steps s free [] ⟨u, v, h, fun _ => le_rfl⟩ (by rwa [List.append_nil])
  exact ⟨t, free', u', v', ht, hsound, hmisses, hle⟩

/-- A phase of row reduction leaves sound prices, none of which has risen, and returns the rows
that are without column. -/
theorem reduceRows_outcome (hf : IsFeasible bound c f) (h : s.IsSound cost c u v)
    {free : List (Fin n)} (hfree : s.Misses free) :
    ∃ t free' u' v', s.reduceRows cost free = .ok (t, free') ∧ t.IsSound cost c u' v' ∧
      t.Misses free' ∧ ∀ k, v' k ≤ v k :=
  bidAll_sound hf h hfree _

end PricedMatching

end LinearAssignment
