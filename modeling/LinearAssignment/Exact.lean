import LinearAssignment.Threshold.Gate

/-!
Exact costs: rational numbers, two infinities and NaN, without rounding. A dense solver needs a
finite number that is larger than every difference of costs, and a bound on the number of bids;
both are parameters.
-/
namespace LinearAssignment

/-- Exact costs whose largest number counts as `bound`, and which allow for `bids` bids per
column. -/
inductive Exact (bound : Rat) (bids : Nat) where
  | nan
  | infinite (negative : Bool)
  | number (q : Rat)
  deriving DecidableEq

namespace Exact

variable {bound : Rat} {bids : Nat}

def isNaN : Exact bound bids → Bool
  | nan => true
  | _ => false

def neg : Exact bound bids → Exact bound bids
  | nan => nan
  | infinite s => infinite (!s)
  | number q => number (-q)

/-- Infinities of opposite sign have no sum; otherwise an infinite operand is the sum. -/
def add : Exact bound bids → Exact bound bids → Exact bound bids
  | number a, number b => number (a + b)
  | infinite s, infinite t => if s = t then infinite s else nan
  | infinite s, number _ => infinite s
  | number _, infinite t => infinite t
  | _, _ => nan

def below : Exact bound bids → Exact bound bids → Bool
  | number a, number b => a < b
  | infinite s, infinite t => s && !t
  | infinite s, number _ => s
  | number _, infinite t => !t
  | _, _ => false

def same : Exact bound bids → Exact bound bids → Bool
  | number a, number b => a = b
  | infinite s, infinite t => s = t
  | _, _ => false

instance : Cost (Exact bound bids) where
  zero := number 0
  neg := neg
  add := add
  sub x y := add x (neg y)
  lt x y := below x y = true
  beq := same
  infinity := infinite false
  largest := number bound
  isNaN := isNaN
  levels := bids
  decidableLT x y := inferInstanceAs (Decidable (below x y = true))

instance : Threshold (Exact bound bids) (Exact bound bids) where
  toCost t := t
  halfCost
    | number q => number (q / 2)
    | t => t
  isFinite
    | number _ => true
    | _ => false
  dominating k
    | number q => number (2 * (k + 1) * (q + 1))
    | x => x

end Exact

end LinearAssignment
