import LinearAssignment.Binary.Basic

/-!
The shortest decimal of a floating-point number: of the decimals that round to the number,
one with the fewest digits, and of those the nearest to the number. Decimals with few digits
are the multiples of a coarse power of ten, so the search goes from coarse grids to fine ones
and looks at the two multiples on either side of the number.
-/
namespace LinearAssignment

structure Decimal where
  significand : Nat
  exponent : Int
  deriving DecidableEq

namespace Decimal

/-- The rationals that round to a number: all of `low / scale` to `high / scale`, of which
`value / scale` is the number itself; the two ends count only if `closed`. -/
structure Interval where
  low : Nat
  value : Nat
  high : Nat
  scale : Nat
  closed : Bool

/-- The rationals that round to a magnitude of the format. The spacing below a power of two
is that of the smaller numbers; the ends are ties, which go to the even significand. -/
def Interval.ofMagnitude (f : Format) (a : Nat) : Interval where
  low := 4 * a - 2 * f.spacing (a - 1)
  value := 4 * a
  high := 4 * a + 2 * f.spacing a
  scale := 4 * f.one
  closed := (a / f.spacing a) % 2 = 0

def Interval.rescale (i : Interval) (s : Int) : Interval :=
  let up := Nat.pow 10 (-s).toNat
  { i with low := i.low * up, value := i.value * up, high := i.high * up,
           scale := i.scale * Nat.pow 10 s.toNat }

def Interval.contains (i : Interval) (k : Nat) : Bool :=
  if i.closed then i.low ≤ k * i.scale ∧ k * i.scale ≤ i.high
  else i.low < k * i.scale ∧ k * i.scale < i.high

/-- The whole number in the interval that is nearest to its value, an exact tie going to the
even one. -/
def Interval.nearest? (i : Interval) : Option Nat :=
  let below := i.value / i.scale
  let above := below + 1
  match i.contains below, i.contains above with
  | false, false => none
  | true, false => some below
  | false, true => some above
  | true, true => some (Format.divToEven i.value i.scale)

/-- Looks for a multiple of `10 ^ s`, then of ever smaller powers, at most `tries` of them. -/
def search (i : Interval) : Nat → Int → Decimal
  | 0, s => let j := i.rescale s; ⟨j.value / j.scale, s⟩
  | tries + 1, s =>
    match (i.rescale s).nearest? with
    | some k => ⟨k, s⟩
    | none => search i tries (s - 1)

/-- A power of ten that is at most ten times too coarse to hold `a / b`. -/
def topExponent (a b : Nat) : Int :=
  ((a.log2 : Int) - b.log2 + 1) * 30103 / 100000 + 1

def shortest (f : Format) (a : Nat) : Decimal :=
  if a = 0 then ⟨0, 0⟩
  else
    let i := Interval.ofMagnitude f a
    search i (f.fractionBits + 3) (topExponent i.value i.scale)

end Decimal

end LinearAssignment
