/-!
Costs: the arithmetic that a solver needs, and the minimum and the sum of finitely many costs.

The solvers are written once for every type of costs, so they run on floating-point numbers
and can be studied on exact ones.

A sum has a fixed order of additions. A short list is added from left to right, a longer one by
eight running sums, and a long one by halves, so that the rounding error grows with the logarithm
of the length.
-/
namespace LinearAssignment

/-- A type of costs. A cost may be infinite, which forbids a pairing, or not a number, which
compares with nothing, itself included. -/
class Cost (α : Type) extends Zero α, Neg α, Add α, Sub α, LT α, BEq α where
  infinity : α
  /-- The largest finite cost. -/
  largest : α
  isNaN : α → Bool
  /-- How often a row reduction may lower the price of a column. Floating-point numbers cannot
  be lowered more often; exact costs take any number. -/
  levels : Nat
  decidableLT : DecidableLT α

namespace Cost

variable {α ι : Type} [Cost α]

instance : DecidableLT α := decidableLT

def atMost (x y : α) : Bool := x < y || x == y

def isFinite (x : α) : Bool := -infinity < x && x < infinity

/-- Whether the cost can have no place in a problem: NaN, or infinitely profitable. -/
def isInvalid (x : α) : Bool := isNaN x || x == -infinity

def abs (x : α) : α := if x < 0 then -x else x

/-- Whether `x` displaces `y` as the minimum found so far. NaN displaces every number. -/
def displaces (x y : α) : Bool := !isNaN y && (isNaN x || x < y)

/-- The first candidate of minimum value, or the first whose value is NaN. -/
def firstMinimum? (value : ι → α) : List ι → Option ι
  | [] => none
  | i :: rest =>
    some (rest.foldl (fun best j => if displaces (value j) (value best) then j else best) i)

def combineEight : List α → α
  | [a, b, c, d, e, f, g, h] => ((a + b) + (c + d)) + ((e + f) + (g + h))
  | sums => sums.foldl (· + ·) (-0)

/-- Adds the entries to eight running sums in turn, as long as eight of them are left, and the
others to the total of the running sums. -/
def sumByEight (sums entries : List α) : α :=
  if 8 ≤ entries.length then
    sumByEight (List.zipWith (· + ·) sums (entries.take 8)) (entries.drop 8)
  else entries.foldl (· + ·) (combineEight sums)
  termination_by entries.length

/-- Where a list of more than 128 entries is halved: at a multiple of eight. -/
def halfLength (n : Nat) : Nat := n / 2 - n / 2 % 8

/-- The sum of a list without the leading zero; an empty list sums to the negative zero. -/
def sumFrom (entries : List α) : α :=
  if entries.length < 8 then entries.foldl (· + ·) (-0)
  else if entries.length ≤ 128 then sumByEight (entries.take 8) (entries.drop 8)
  else
    sumFrom (entries.take (halfLength entries.length)) +
      sumFrom (entries.drop (halfLength entries.length))
  termination_by entries.length
  decreasing_by all_goals simp only [List.length_take, List.length_drop, halfLength]; omega

def sum (entries : List α) : α := 0 + sumFrom entries

end Cost

/-- Why a search for a column came to nothing. None of these arises on a matrix that has no
more rows than columns and no invalid entry. -/
inductive SearchError where
  /-- The minimum of no costs was asked for. -/
  | nothingToMinimize
  /-- No cost equals the minimum, which is NaN. -/
  | minimumNotAttained
  /-- Every column has been settled and none of them was free. -/
  | columnsExhausted
  deriving DecidableEq

end LinearAssignment
