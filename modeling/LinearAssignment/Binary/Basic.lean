import LinearAssignment.Binary.Format
import LinearAssignment.Cost

/-!
Floating-point numbers of a format, with the arithmetic of the standard: each operation is
carried out exactly on counts of quanta and rounded once. There is one NaN; zero has a sign.
-/
namespace LinearAssignment

/-- A number of the format: a sign and a magnitude in quanta, where the ceiling stands for
infinity; or not a number. -/
inductive Binary (f : Format) where
  | nan
  | number (negative : Bool) (magnitude : Nat) (has : f.Has magnitude)
  deriving DecidableEq

namespace Binary

variable {f : Format}

/-- The number of the format nearest to `a / b` quanta, with the given sign. -/
def ofQuotient (negative : Bool) (a b : Nat) : Binary f :=
  .number negative (f.round a b) (f.has_round a b)

def ofRatio (negative : Bool) (a b : Nat) : Binary f :=
  ofQuotient negative (a * f.one) b

def ofInt (z : Int) : Binary f := ofRatio (z < 0) z.natAbs 1

def zero : Binary f := .number false 0 f.has_zero

def infinity : Binary f := .number false f.ceiling f.has_ceiling

def largest : Binary f := ofQuotient false (f.ceiling - f.spacing (f.ceiling - 1)) 1

def isNaN : Binary f → Bool
  | nan => true
  | number .. => false

def signed (negative : Bool) (magnitude : Nat) : Int :=
  if negative then -magnitude else magnitude

/-- The number in quanta, where an infinity counts as the ceiling. -/
def toInt? : Binary f → Option Int
  | nan => none
  | number s a _ => some (signed s a)

def isFinite : Binary f → Bool
  | nan => false
  | number _ a _ => a < f.ceiling

def neg : Binary f → Binary f
  | nan => nan
  | number s a h => number (!s) a h

def abs : Binary f → Binary f
  | nan => nan
  | number _ a h => number false a h

/-- Two infinities of opposite sign have no sum; otherwise an infinite operand is the sum.
Finite numbers that cancel add up to the zero that is not negative. -/
def add : Binary f → Binary f → Binary f
  | number s a ha, number t b hb =>
    if f.ceiling ≤ a then
      if f.ceiling ≤ b ∧ s ≠ t then nan else number s a ha
    else if f.ceiling ≤ b then number t b hb
    else if s = t then ofQuotient s (a + b) 1
    else if a < b then ofQuotient t (b - a) 1
    else if b < a then ofQuotient s (a - b) 1
    else zero
  | _, _ => nan

def sub (x y : Binary f) : Binary f := add x (neg y)

/-- Zero times infinity has no product. -/
def mul : Binary f → Binary f → Binary f
  | number s a _, number t b _ =>
    if f.ceiling ≤ a ∨ f.ceiling ≤ b then
      if a = 0 ∨ b = 0 then nan else number (s != t) f.ceiling f.has_ceiling
    else ofQuotient (s != t) (a * b) f.one
  | _, _ => nan

def halve : Binary f → Binary f
  | nan => nan
  | number s a h => if f.ceiling ≤ a then number s a h else ofQuotient s a 2

def convert (g : Format) : Binary f → Binary g
  | nan => nan
  | number s a _ =>
    if f.ceiling ≤ a then number s g.ceiling g.has_ceiling
    else ofQuotient s (a * g.one) f.one

/-- The number rounded toward zero, or nothing if it is not finite. -/
def truncate? : Binary f → Option Int
  | nan => none
  | number s a _ => if f.ceiling ≤ a then none else some (signed s (a / f.one))

def below : Binary f → Binary f → Bool
  | number s a _, number t b _ => signed s a < signed t b
  | _, _ => false

/-- Whether the numbers have one value; NaN equals nothing, and the two zeros are equal. -/
def same : Binary f → Binary f → Bool
  | number s a _, number t b _ => signed s a = signed t b
  | _, _ => false

instance : Zero (Binary f) := ⟨zero⟩
instance : Neg (Binary f) := ⟨neg⟩
instance : Add (Binary f) := ⟨add⟩
instance : Sub (Binary f) := ⟨sub⟩
instance : Mul (Binary f) := ⟨mul⟩
instance : LT (Binary f) := ⟨fun x y => below x y = true⟩
instance : LE (Binary f) := ⟨fun x y => (below x y || same x y) = true⟩
instance : DecidableLT (Binary f) := fun x y => inferInstanceAs (Decidable (below x y = true))
instance : DecidableLE (Binary f) :=
  fun x y => inferInstanceAs (Decidable ((below x y || same x y) = true))
instance : BEq (Binary f) := ⟨same⟩

/-- The bit pattern of a magnitude. The exponent field counts the doublings of the spacing,
so that the leading bit of the significand carries into it. -/
def encode (f : Format) (magnitude : Nat) : Nat :=
  let e := magnitude.log2 - f.fractionBits
  e * Nat.pow 2 f.fractionBits + magnitude / Nat.pow 2 e

def bits? : Binary f → Option Nat
  | nan => none
  | number s a _ =>
    some (encode f a + if s then Nat.pow 2 (f.fractionBits + f.exponentBits) else 0)

end Binary

instance (f : Format) : Cost (Binary f) where
  infinity := .infinity
  largest := .largest
  isNaN := Binary.isNaN
  levels := Nat.pow 2 (f.fractionBits + f.exponentBits + 1)
  decidableLT := inferInstance

end LinearAssignment
