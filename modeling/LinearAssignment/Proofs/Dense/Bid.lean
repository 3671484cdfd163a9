import LinearAssignment.Dense.RowReduction
import LinearAssignment.Proofs.Assignment
import LinearAssignment.Proofs.CostOrder
import LinearAssignment.Proofs.Potential
import Mathlib.Data.List.FinRange

/-! What a row bids, and what becomes of the matching and the prices when it does. In exact
arithmetic the offer lies between the smallest reduced cost of the row and the second smallest, so
the row is content with the column that it takes. -/
namespace LinearAssignment

section choice

variable {α : Type} [Cost α] {n m : ℕ}

namespace Bid

variable {row price : Vector α m} {isFree : Fin m → Bool}

def reduced (row price : Vector α m) : Vector α m := Vector.zipWith (· - ·) row price

/-- The reduced costs of the columns other than the best one, which counts as forbidden. -/
def others (row price : Vector α m) (best : Fin m) : Vector α m :=
  (reduced row price).setIfInBounds best Cost.infinity

theorem getElem_others (best j : Fin m) :
    (others row price best)[j] = if j = best then Cost.infinity else (reduced row price)[j] :=
  getElem_set_fin _ _ _ _

def ties (row price : Vector α m) (best k : Fin m) : List (Fin m) :=
  (List.finRange m).filter fun j =>
    j ≠ best && (others row price best)[j] == (others row price best)[k]

theorem mem_ties {best k j : Fin m} : j ∈ ties row price best k ↔
    j ≠ best ∧ ((others row price best)[j] == (others row price best)[k]) = true := by
  simp only [ties, List.mem_filter, List.mem_finRange, true_and, Bool.and_eq_true, ne_eq,
    decide_eq_true_eq]

/-- The second place is never empty: if it is that of the best column, which counts as dearest, all
others are as dear. -/
theorem ties_ne_nil {κ : Type} [LinearOrder κ] {key : Fin m → κ} {best k : Fin m}
    (hkey : Cost.IsKeyed (fun j : Fin m => (others row price best)[j]) key) (hm : m ≠ 1)
    (hk : Cost.firstMinimum? (fun j : Fin m => (others row price best)[j]) (List.finRange m) =
      some k) (htop : ∀ j, key j ≤ key best) : ties row price best k ≠ [] := by
  have hmin : ∀ j, key k ≤ key j := fun j => (hkey.firstMinimum? hk).2 j (List.mem_finRange j)
  obtain ⟨l, hl, hlk⟩ : ∃ l, l ≠ best ∧ key l = key k := by
    by_cases hkb : k = best
    · have hlt := best.isLt
      have : Nontrivial (Fin m) := Fin.nontrivial_iff_two_le.mpr (by omega)
      obtain ⟨l, hl⟩ := exists_ne best
      exact ⟨l, hl, le_antisymm (hkb ▸ htop l) (hmin l)⟩
    · exact ⟨k, hkb, rfl⟩
  exact List.ne_nil_of_mem (mem_ties.mpr ⟨hl, (hkey.beq_iff l k).mpr hlk⟩)

theorem ofRow_eq : ofRow row price isFree =
    match Cost.firstMinimum? (fun j : Fin m => (reduced row price)[j]) (List.finRange m) with
    | none => .error .nothingToMinimize
    | some best =>
      if m = 1 then .ok ⟨(reduced row price)[best], (reduced row price)[best], best, none⟩
      else
        match Cost.firstMinimum? (fun j : Fin m => (others row price best)[j])
          (List.finRange m) with
        | none => .error .nothingToMinimize
        | some k =>
          match ((ties row price best k).find? isFree).or (ties row price best k).head? with
          | none => .error .minimumNotAttained
          | some j => .ok ⟨(reduced row price)[best],
              if Cost.largest < (others row price best)[k] then Cost.largest
              else (others row price best)[k], best, some j⟩ := rfl

theorem eq_one_of_ofRow {b : Bid α m} (h : ofRow row price isFree = .ok b)
    (hno : b.runnerUp = none) : m = 1 := by
  rw [ofRow_eq] at h
  split at h
  · simp at h
  · split at h
    next hm => exact hm
    next =>
      split at h
      · simp at h
      · split at h
        · simp at h
        · obtain rfl := Except.ok.inj h
          simp at hno

theorem ofRow_of_single {best : Fin m}
    (hbest : Cost.firstMinimum? (fun j : Fin m => (reduced row price)[j]) (List.finRange m) =
      some best) (hm : m = 1) :
    ofRow row price isFree =
      .ok ⟨(reduced row price)[best], (reduced row price)[best], best, none⟩ := by
  rw [ofRow_eq, hbest]
  exact if_pos hm

theorem exists_runnerUp (isFree : Fin m → Bool) {best k : Fin m}
    (hties : ties row price best k ≠ []) :
    ∃ j, ((ties row price best k).find? isFree).or (ties row price best k).head? = some j := by
  cases (ties row price best k).find? isFree with
  | some j => exact ⟨j, rfl⟩
  | none => exact ⟨_, List.head?_eq_some_head hties⟩

theorem ofRow_of_runnerUp {best k j : Fin m}
    (hbest : Cost.firstMinimum? (fun j : Fin m => (reduced row price)[j]) (List.finRange m) =
      some best) (hm : m ≠ 1)
    (hk : Cost.firstMinimum? (fun j : Fin m => (others row price best)[j]) (List.finRange m) =
      some k)
    (hj : ((ties row price best k).find? isFree).or (ties row price best k).head? = some j) :
    ofRow row price isFree = .ok ⟨(reduced row price)[best],
      if Cost.largest < (others row price best)[k] then Cost.largest
      else (others row price best)[k], best, some j⟩ := by
  rw [ofRow_eq, hbest]
  simp only [if_neg hm, hk, hj]

theorem exists_ofRow (isFree : Fin m → Bool) {best k : Fin m}
    (hbest : Cost.firstMinimum? (fun j : Fin m => (reduced row price)[j]) (List.finRange m) =
      some best) (hm : m ≠ 1)
    (hk : Cost.firstMinimum? (fun j : Fin m => (others row price best)[j]) (List.finRange m) =
      some k) (hties : ties row price best k ≠ []) :
    ∃ j ∈ ties row price best k, ofRow row price isFree = .ok ⟨(reduced row price)[best],
      if Cost.largest < (others row price best)[k] then Cost.largest
      else (others row price best)[k], best, some j⟩ := by
  obtain ⟨j, hj⟩ := exists_runnerUp isFree hties
  refine ⟨j, ?_, ofRow_of_runnerUp hbest hm hk hj⟩
  rcases Option.or_eq_some_iff.mp hj with hj | ⟨_, hj⟩
  · exact List.mem_of_find?_eq_some hj
  · exact List.mem_of_head? hj

/-- The smallest of the costs always has a place, and the second smallest too unless there is only
one column. -/
theorem exists_ofRow_of_number [Cost.Ordered α] (isFree : Fin m → Bool) (hm : 0 < m)
    (hnumber : ∀ j : Fin m, Cost.isNaN (reduced row price)[j] = false) :
    ∃ b, ofRow row price isFree = .ok b := by
  have hne : List.finRange m ≠ [] := List.ne_nil_of_mem (List.mem_finRange ⟨0, hm⟩)
  obtain ⟨best, hbest⟩ :=
    Cost.exists_firstMinimum? (fun j : Fin m => (reduced row price)[j]) hne
  by_cases hone : m = 1
  · exact ⟨_, ofRow_of_single hbest hone⟩
  · have hnumber' : ∀ j : Fin m, Cost.isNaN (others row price best)[j] = false := by
      intro j
      rw [getElem_others]
      split
      · exact Cost.Ordered.isNaN_infinity
      · exact hnumber j
    obtain ⟨k, hk⟩ :=
      Cost.exists_firstMinimum? (fun j : Fin m => (others row price best)[j]) hne
    obtain ⟨κ, _, key, htop, hkeyed⟩ := Cost.Ordered.exists_isKeyed hnumber'
    have hties := ties_ne_nil hkeyed hone hk fun j => by
      rw [getElem_others best best, if_pos rfl]
      exact htop _
    obtain ⟨j, -, hb⟩ := exists_ofRow isFree hbest hone hk hties
    exact ⟨_, hb⟩

end Bid

def Displaced.row? : Displaced n → Option (Fin n)
  | nobody => none
  | outbid i => some i
  | deferred i => some i

namespace PricedMatching

variable {cost : CostMatrix α n m} {s : PricedMatching α n m} {i : Fin n} {b : Bid α m}

/-- What the best column would cost after a bid. -/
def lowered (s : PricedMatching α n m) (b : Bid α m) : α :=
  s.price[b.best] - (b.second - b.least)

/-- Row `i` has taken column `j` from its holder: its best one at a lower price, or else one of its
two best at the same price, and then the holder has to wait. -/
structure Takes (s : PricedMatching α n m) (i : Fin n) (b : Bid α m) (j : Fin m)
    (r : PricedMatching α n m × Displaced n) : Prop where
  toMatching : r.1.toMatching = s.toMatching.pair i j
  displaced : r.2.row? = s.rowOf[j]
  price : (j = b.best ∧ s.lowered b < s.price[b.best] ∧
      r.1.price = s.price.setIfInBounds b.best (s.lowered b)) ∨
    ((j = b.best ∨ b.runnerUp = some j) ∧ ¬ s.lowered b < s.price[b.best] ∧
      r.1.price = s.price ∧ ∀ i', r.2 ≠ .outbid i')

/-- Only a row without a runner-up could fail to take a column, and its best one is free. -/
theorem exists_bid (hb : Bid.ofRow cost[i] s.price s.isFree = .ok b)
    (hnone : b.runnerUp = none → s.rowOf[b.best] = none) :
    ∃ j r, s.bid cost i = .ok r ∧ s.Takes i b j r := by
  unfold bid
  simp only [hb, bind, Except.bind]
  split
  next hlt =>
    refine ⟨b.best, _, rfl, rfl, ?_, .inl ⟨rfl, hlt, rfl⟩⟩
    cases s.rowOf[b.best] <;> rfl
  next hlt =>
    split
    next hfree =>
      exact ⟨b.best, _, rfl, rfl, hfree.symm, .inr ⟨.inl rfl, hlt, rfl, by simp⟩⟩
    next r hr =>
      obtain ⟨j, hj⟩ : ∃ j, b.runnerUp = some j := by
        refine Option.ne_none_iff_exists'.mp fun hj => ?_
        rw [hnone hj] at hr
        exact absurd hr (by simp)
      simp only [hj, Option.getD_some]
      refine ⟨j, _, rfl, rfl, ?_, .inr ⟨.inr hj, hlt, rfl, fun i' => ?_⟩⟩
      · simp only
        cases s.rowOf[j] <;> rfl
      · simp only
        cases s.rowOf[j] <;> simp

theorem exists_ofRow [Cost.Ordered α] (hvalid : cost.hasInvalidEntry = false)
    (hprice : ∀ j : Fin m, Cost.atMost s.price[j] 0 = true) (hnm : n ≤ m) (i : Fin n) :
    ∃ b, Bid.ofRow cost[i] s.price s.isFree = .ok b := by
  refine Bid.exists_ofRow_of_number s.isFree (i.pos.trans_le hnm) fun j => ?_
  rw [Bid.reduced, getElem_zipWith_fin]
  exact Cost.Ordered.isNaN_sub (CostMatrix.isInvalid_eq_false hvalid i j) (hprice j)

variable {j : Fin m} {r : PricedMatching α n m × Displaced n}

/-- A bid lowers a price in earnest or leaves all prices as they are. -/
theorem Takes.price_le (h : s.Takes i b j r) :
    r.1.price = s.price ∧ (∀ i', r.2 ≠ .outbid i') ∨
      r.1.price[b.best] < s.price[b.best] ∧ ∀ k, k ≠ b.best → r.1.price[k] = s.price[k] := by
  rcases h.price with ⟨-, hlt, hprice⟩ | ⟨-, -, hprice, hnone⟩
  · refine .inr ⟨?_, fun k hk => ?_⟩
    · rw [hprice, getElem_set_fin, if_pos rfl]
      exact hlt
    · rw [hprice, getElem_set_fin, if_neg hk]
  · exact .inl ⟨hprice, hnone⟩

end PricedMatching

end choice

variable {bound : ℚ} {bids n m : ℕ}

namespace Bid

variable {row price : Vector (Exact bound bids) m} {w : Fin m → WithTop ℚ}

/-- The bid `y` lies between the smallest of the reduced costs `w`, which is `x`, and the others. It
is one of them or the largest number. -/
structure IsBetween (b : Bid (Exact bound bids) m) (w : Fin m → WithTop ℚ) (x y : ℚ) : Prop where
  least : b.least = .ofTop (x : WithTop ℚ)
  second : b.second = .ofTop (y : WithTop ℚ)
  best : w b.best = x
  le : x ≤ y
  le_largest : y ≤ bound
  attained : y = bound ∨ ∃ j, w j = y
  others : ∀ j, j ≠ b.best → (y : WithTop ℚ) ≤ w j
  runnerUp : ∀ {j}, b.runnerUp = some j → x = y → w j = x
  single : b.runnerUp = none → m = 1
  alone : m = 1 → x = y

theorem getElem_others_eq (hw : ∀ j : Fin m, (reduced row price)[j] = .ofTop (w j))
    (best j : Fin m) :
    (Bid.others row price best)[j] = .ofTop (Function.update w best ⊤ j) := by
  rw [getElem_others, Function.update_apply]
  split
  · rfl
  · exact hw j

/-- A second place beyond the largest number counts as that number. -/
theorem second_eq (z : WithTop ℚ) :
    (if Cost.largest < (Exact.ofTop z : Exact bound bids) then Cost.largest else .ofTop z) =
      (Exact.ofTop (min (bound : WithTop ℚ) z) : Exact bound bids) := by
  rw [Exact.largest_eq]
  split
  next hlt => rw [min_eq_left (Exact.ofTop_lt.mp hlt).le]
  next hlt => rw [min_eq_right (not_lt.mp fun h => hlt (Exact.ofTop_lt.mpr h))]

/-- A row with a reduced cost below the largest number makes such a bid. -/
theorem exists_isBetween (isFree : Fin m → Bool)
    (hw : ∀ j : Fin m, (reduced row price)[j] = .ofTop (w j)) {j₀ : Fin m}
    (hj₀ : w j₀ < (bound : WithTop ℚ)) :
    ∃ b x y, ofRow row price isFree = .ok b ∧ b.IsBetween w x y := by
  have hm : List.finRange m ≠ [] := List.ne_nil_of_mem (List.mem_finRange j₀)
  have hkey : Cost.IsKeyed (fun j : Fin m => (reduced row price)[j]) w := Cost.isKeyed_ofTop hw
  obtain ⟨best, hbest⟩ :=
    Cost.exists_firstMinimum? (fun j : Fin m => (reduced row price)[j]) hm
  have hmin : ∀ j, w best ≤ w j := fun j =>
    (hkey.firstMinimum? hbest).2 j (List.mem_finRange j)
  have hlt : w best < (bound : WithTop ℚ) := (hmin j₀).trans_lt hj₀
  obtain ⟨x, hx⟩ := WithTop.ne_top_iff_exists.mp (ne_top_of_lt hlt)
  have hleast : (reduced row price)[best] = .ofTop (x : WithTop ℚ) := by rw [hw, hx]
  have hxb : x < bound := by rwa [← hx, WithTop.coe_lt_coe] at hlt
  by_cases hone : m = 1
  · refine ⟨_, x, x, ofRow_of_single hbest hone, hleast, hleast, hx.symm, le_rfl, hxb.le,
      .inr ⟨best, hx.symm⟩, fun j hj => ?_, fun hj => absurd hj (by simp), fun _ => hone,
      fun _ => rfl⟩
    subst hone
    exact absurd (Subsingleton.elim j best) hj
  · -- The second place is decided among the columns other than the best one.
    have hw' := getElem_others_eq hw best
    have hkey' : Cost.IsKeyed (fun j : Fin m => (Bid.others row price best)[j])
        (Function.update w best ⊤) := Cost.isKeyed_ofTop hw'
    obtain ⟨k, hk⟩ :=
      Cost.exists_firstMinimum? (fun j : Fin m => (Bid.others row price best)[j]) hm
    have hmin' := fun j => (hkey'.firstMinimum? hk).2 j (List.mem_finRange j)
    have hties : ties row price best k ≠ [] := ties_ne_nil hkey' hone hk fun j => by
      rw [Function.update_self]
      exact le_top
    obtain ⟨j, hj, hb⟩ := exists_ofRow isFree hbest hone hk hties
    obtain ⟨hjb, hjk⟩ := mem_ties.mp hj
    have hjw : w j = Function.update w best ⊤ k := by
      rw [← (hkey'.beq_iff j k).mp hjk, Function.update_of_ne hjb]
    obtain ⟨y, hy⟩ : ∃ y : ℚ, (y : WithTop ℚ) = min (bound : WithTop ℚ) (w j) :=
      WithTop.ne_top_iff_exists.mp (ne_top_of_le_ne_top WithTop.coe_ne_top (min_le_left _ _))
    refine ⟨_, x, y, hb, hleast, ?second, hx.symm, ?le, ?le_largest, ?attained, ?others,
      ?runnerUp, fun hno => absurd hno (by simp), fun hm => absurd hm hone⟩
    case second => rw [hw', ← hjw, second_eq, hy]
    case le =>
      rw [← WithTop.coe_le_coe, hx, hy]
      exact le_min hlt.le (hmin j)
    case le_largest =>
      rw [← WithTop.coe_le_coe, hy]
      exact min_le_left _ _
    case attained =>
      rcases min_choice (bound : WithTop ℚ) (w j) with h | h
      · exact .inl (WithTop.coe_injective (hy.trans h))
      · exact .inr ⟨j, (hy.trans h).symm⟩
    case others =>
      intro j' hj'
      rw [hy, hjw]
      exact (min_le_right _ _).trans ((hmin' j').trans_eq (Function.update_of_ne hj' _ _))
    case runnerUp =>
      intro _ hj' hxy
      obtain rfl := Option.some.inj hj'
      rw [hxy, hy]
      refine (min_eq_right (not_lt.mp fun hlt' => hxb.ne ?_)).symm
      rw [hxy, ← WithTop.coe_inj, hy, min_eq_left hlt'.le]

end Bid

end LinearAssignment
