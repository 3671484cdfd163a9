import LinearAssignment.Cost
import LinearAssignment.CostMatrix
import LinearAssignment.Exact
import Mathlib.Algebra.Order.BigOperators.Group.List
import Mathlib.Algebra.Order.Monoid.WithTop
import Mathlib.Algebra.Order.Ring.Rat
import Mathlib.Tactic.Linarith
import Mathlib.Tactic.Ring

/-! Arithmetic of exact costs. The costs that a solver admits are the rational numbers and a
top element that forbids a pairing, with their usual sums and order. -/
namespace LinearAssignment.Exact

variable {bound : ℚ} {bids : ℕ}

def ofTop : WithTop ℚ → Exact bound bids
  | none => infinite false
  | some q => number q

/-- The number that a finite cost is; any other cost counts as infinite. -/
def toTop : Exact bound bids → WithTop ℚ
  | number q => q
  | _ => ⊤

def value : Exact bound bids → ℚ
  | number q => q
  | _ => 0

/-- The same cost, where another number of bids is allowed. -/
def allow (bids' : ℕ) : Exact bound bids → Exact bound bids'
  | nan => nan
  | infinite negative => infinite negative
  | number q => number q

theorem allow_neg (bids' : ℕ) (x : Exact bound bids) : -allow bids' x = allow bids' (-x) := by
  cases x <;> rfl

theorem allow_ofTop (bids' : ℕ) (x : WithTop ℚ) :
    allow bids' (ofTop x : Exact bound bids) = ofTop x := by
  cases x <;> rfl

theorem ofTop_top : (ofTop ⊤ : Exact bound bids) = infinite false := rfl

@[simp] theorem ofTop_coe (q : ℚ) : (ofTop (q : WithTop ℚ) : Exact bound bids) = number q := rfl

theorem ofTop_injective : Function.Injective (ofTop : WithTop ℚ → Exact bound bids) := by
  intro x y h
  cases x <;> cases y <;> simp_all [ofTop_top]

theorem ofTop_eq_number {x : WithTop ℚ} {q : ℚ} :
    (ofTop x : Exact bound bids) = number q ↔ x = q := by
  rw [← ofTop_coe, ofTop_injective.eq_iff]

theorem ofTop_add (x y : WithTop ℚ) :
    (ofTop x + ofTop y : Exact bound bids) = ofTop (x + y) := by
  cases x <;> cases y <;> rfl

theorem ofTop_sub (x : WithTop ℚ) (q : ℚ) :
    (ofTop x - ofTop (q : WithTop ℚ) : Exact bound bids) =
      ofTop (x + ((-q : ℚ) : WithTop ℚ)) :=
  ofTop_add x ((-q : ℚ) : WithTop ℚ)

theorem ofTop_coe_add (a b : ℚ) : (ofTop (a : WithTop ℚ) + ofTop (b : WithTop ℚ) :
    Exact bound bids) = ofTop ((a + b : ℚ) : WithTop ℚ) := rfl

theorem ofTop_coe_sub (a b : ℚ) : (ofTop (a : WithTop ℚ) - ofTop (b : WithTop ℚ) :
    Exact bound bids) = ofTop ((a - b : ℚ) : WithTop ℚ) := by
  rw [ofTop_sub, ← WithTop.coe_add, sub_eq_add_neg]

theorem ofTop_lt {x y : WithTop ℚ} : (ofTop x : Exact bound bids) < ofTop y ↔ x < y := by
  change below (ofTop x) (ofTop y) = true ↔ x < y
  cases x <;> cases y <;> simp [ofTop_top, below]

theorem number_lt {a b : ℚ} : (number a : Exact bound bids) < number b ↔ a < b :=
  ⟨of_decide_eq_true, decide_eq_true⟩

theorem ofTop_beq (x y : WithTop ℚ) :
    ((ofTop x : Exact bound bids) == ofTop y) = decide (x = y) := by
  change same (ofTop x) (ofTop y) = decide (x = y)
  cases x <;> cases y <;> simp [ofTop_top, same]

theorem isNaN_ofTop (x : WithTop ℚ) : Cost.isNaN (ofTop x : Exact bound bids) = false := by
  cases x <;> rfl

theorem infinity_eq : (Cost.infinity : Exact bound bids) = ofTop ⊤ := rfl

theorem largest_eq : (Cost.largest : Exact bound bids) = ofTop (bound : WithTop ℚ) := rfl

theorem zero_eq : (0 : Exact bound bids) = ofTop ((0 : ℚ) : WithTop ℚ) := rfl

theorem isFinite_iff {x : Exact bound bids} : Cost.isFinite x = true ↔ ∃ q, x = number q := by
  cases x with
  | nan => simp [Cost.isFinite, Cost.infinity, LT.lt, Neg.neg, neg, below]
  | infinite s => cases s <;> simp [Cost.isFinite, Cost.infinity, LT.lt, Neg.neg, neg, below]
  | number q => simp [Cost.isFinite, Cost.infinity, LT.lt, Neg.neg, neg, below]

theorem isInvalid_iff {x : Exact bound bids} :
    Cost.isInvalid x = true ↔ x = nan ∨ x = infinite true := by
  cases x with
  | nan => simp [Cost.isInvalid, Cost.isNaN, isNaN]
  | infinite s =>
    cases s <;> simp [Cost.isInvalid, Cost.isNaN, isNaN, Cost.infinity, Neg.neg, neg, BEq.beq, same]
  | number q => simp [Cost.isInvalid, Cost.isNaN, isNaN, Cost.infinity, Neg.neg, neg, BEq.beq, same]

theorem ofTop_toTop {x : Exact bound bids} (h : ¬ Cost.isInvalid x = true) :
    ofTop x.toTop = x := by
  rw [isInvalid_iff] at h
  cases x with
  | nan => simp at h
  | infinite s => cases s <;> simp_all [toTop, ofTop_top]
  | number q => rfl

theorem isFinite_ofTop {x : WithTop ℚ} :
    Cost.isFinite (ofTop x : Exact bound bids) = true ↔ x ≠ ⊤ := by
  cases x with
  | top => simp [ofTop_top, isFinite_iff]
  | coe q => simp [isFinite_iff]

theorem isFinite_neg (x : Exact bound bids) : Cost.isFinite (-x) = Cost.isFinite x := by
  rw [Bool.eq_iff_iff, isFinite_iff, isFinite_iff]
  cases x with
  | nan => exact ⟨fun ⟨_, h⟩ => (nomatch h), fun ⟨_, h⟩ => (nomatch h)⟩
  | infinite s => exact ⟨fun ⟨_, h⟩ => (nomatch h), fun ⟨_, h⟩ => (nomatch h)⟩
  | number q => exact ⟨fun _ => ⟨q, rfl⟩, fun _ => ⟨-q, rfl⟩⟩

theorem value_neg (x : Exact bound bids) : (-x).value = -x.value := by
  cases x with
  | nan => exact neg_zero.symm
  | infinite s => exact neg_zero.symm
  | number q => rfl

theorem number_of_neg {x : Exact bound bids} {q : ℚ} (h : -x = number q) : x = number (-q) := by
  cases x with
  | nan => nomatch h
  | infinite s => nomatch h
  | number p =>
    have hp : -p = q := by
      injection h
    rw [← hp, neg_neg]

section sum

theorem number_add (a b : ℚ) : (number a + number b : Exact bound bids) = number (a + b) := rfl

theorem add_eq_number {x y : Exact bound bids} {q : ℚ} (h : x + y = number q) :
    ∃ a b, x = number a ∧ y = number b ∧ q = a + b := by
  change add x y = number q at h
  unfold add at h
  split at h
  · exact ⟨_, _, rfl, rfl, (number.inj h).symm⟩
  · split at h <;> simp at h
  · simp at h
  · simp at h
  · simp at h

theorem foldl_add_number (a : ℚ) (qs : List ℚ) :
    (qs.map number).foldl (· + ·) (number a : Exact bound bids) = number (a + qs.sum) := by
  induction qs generalizing a with
  | nil => simp
  | cons q qs ih =>
    rw [List.map_cons, List.foldl_cons, number_add, ih, List.sum_cons, add_assoc]

theorem foldl_add_negZero (qs : List ℚ) :
    (qs.map number).foldl (· + ·) (-0 : Exact bound bids) = number qs.sum := by
  have h : (-0 : Exact bound bids) = number (-0) := rfl
  rw [h, foldl_add_number, neg_zero, zero_add]

theorem combineEight_number (qs : List ℚ) :
    Cost.combineEight (qs.map number : List (Exact bound bids)) = number qs.sum := by
  unfold Cost.combineEight
  split
  next hqs =>
    simp only [List.map_eq_cons_iff, List.map_eq_nil_iff] at hqs
    obtain ⟨a, _, rfl, rfl, b, _, rfl, rfl, c, _, rfl, rfl, d, _, rfl, rfl, e, _, rfl, rfl,
      f, _, rfl, rfl, g, _, rfl, rfl, h, _, rfl, rfl, rfl⟩ := hqs
    simp only [number_add, List.sum_cons, List.sum_nil, Exact.number.injEq]
    ring
  next => exact foldl_add_negZero qs

theorem sum_zipWith_add (as bs : List ℚ) (h : as.length = bs.length) :
    (List.zipWith (· + ·) as bs).sum = as.sum + bs.sum := by
  induction as generalizing bs with
  | nil => cases bs with
    | nil => simp
    | cons => simp at h
  | cons a as ih => cases bs with
    | nil => simp at h
    | cons b bs =>
      simp only [List.zipWith_cons_cons, List.sum_cons, ih bs (by simpa using h)]
      ring

theorem sumByEight_number (sums qs : List ℚ) (h : sums.length = 8) :
    Cost.sumByEight (sums.map number) (qs.map number : List (Exact bound bids)) =
      number (sums.sum + qs.sum) := by
  induction hk : qs.length using Nat.strong_induction_on generalizing sums qs with
  | _ k ih =>
    unfold Cost.sumByEight
    rw [List.length_map]
    split
    next hlen =>
      have htake : (qs.take 8).length = 8 := by simp [hlen]
      have hzip : List.zipWith (· + ·) (sums.map number) ((qs.take 8).map number) =
          (List.zipWith (· + ·) sums (qs.take 8)).map (number : ℚ → Exact bound bids) := by
        rw [List.zipWith_map, List.map_zipWith]
        rfl
      rw [← List.map_take, ← List.map_drop, hzip, ih (qs.drop 8).length (by simp; omega) _ _
        (by simp [h, hlen]) rfl, sum_zipWith_add _ _ (h.trans htake.symm), add_assoc,
        List.sum_take_add_sum_drop]
    next => rw [combineEight_number, foldl_add_number]

theorem sumFrom_number (qs : List ℚ) :
    Cost.sumFrom (qs.map number : List (Exact bound bids)) = number qs.sum := by
  induction hk : qs.length using Nat.strong_induction_on generalizing qs with
  | _ k ih =>
    unfold Cost.sumFrom
    rw [List.length_map]
    split
    next => exact foldl_add_negZero qs
    next hlen =>
      split
      next =>
        rw [← List.map_take, ← List.map_drop, sumByEight_number _ _ (by simp; omega),
          List.sum_take_add_sum_drop]
      next =>
        have hhalf : Cost.halfLength qs.length < qs.length ∧ 0 < Cost.halfLength qs.length := by
          unfold Cost.halfLength
          omega
        rw [← List.map_take, ← List.map_drop, ih _ (by simp; omega) _ rfl,
          ih _ (by simp; omega) _ rfl, number_add, List.sum_take_add_sum_drop]

/-- Without rounding the order of the additions does not matter. -/
theorem sum_eq {xs : List (Exact bound bids)} (h : ∀ x ∈ xs, Cost.isFinite x = true) :
    Cost.sum xs = number (xs.map value).sum := by
  have hxs : xs = (xs.map value).map number := by
    rw [List.map_map]
    conv_lhs => rw [← List.map_id xs]
    refine List.map_congr_left fun x hx => ?_
    obtain ⟨q, rfl⟩ := isFinite_iff.mp (h x hx)
    rfl
  have hsum : Cost.sumFrom ((xs.map value).map number : List (Exact bound bids)) =
      number (xs.map value).sum := sumFrom_number _
  rw [← hxs] at hsum
  rw [Cost.sum, hsum]
  exact congrArg number (zero_add _)

end sum

end LinearAssignment.Exact
