import LinearAssignment.Decimal.Shortest
import LinearAssignment.Text

/-!
Reading a number from its text: the nearest number to a decimal, and the grammar of decimals.
-/
namespace LinearAssignment

/-- An exponent so large that a power of ten with it, or with its negative, lies beyond all finite
numbers of a format that are not zero. -/
def Format.decimalReach (f : Format) : Nat := Nat.pow 2 f.exponentBits + f.fractionBits

/-- The number nearest to a decimal, with the given sign. What an exponent exceeds the reach of the
format by makes no difference and is left out. -/
def Binary.ofDecimal {f : Format} (negative : Bool) (d : Decimal) : Binary f :=
  let lowest : Int := -(f.decimalReach + d.significand.log2 + 1)
  let exponent := max lowest (min d.exponent f.decimalReach)
  .ofRatio negative (d.significand * Nat.pow 10 exponent.toNat) (Nat.pow 10 (-exponent).toNat)

namespace Decimal

/-- The leading digits, of any script and with single underscores between them, and the rest
of the text. -/
def readDigits : List Char → List Nat × List Char
  | [] => ([], [])
  | c :: rest =>
    match Text.digit? c with
    | none => ([], c :: rest)
    | some d =>
      let (ds, tail) := readDigits rest
      if ds.isEmpty then
        match rest with
        | '_' :: rest' =>
          let (ds, tail) := readDigits rest'
          if ds.isEmpty then ([d], rest) else (d :: ds, tail)
        | _ => ([d], rest)
      else (d :: ds, tail)

def ofDigits (ds : List Nat) : Nat := ds.foldl (fun n d => 10 * n + d) 0

def readSign : List Char → Bool × List Char
  | '-' :: rest => (true, rest)
  | '+' :: rest => (false, rest)
  | cs => (false, cs)

def readExponent? : List Char → Option Int
  | [] => some 0
  | c :: rest =>
    if c = 'e' || c = 'E' then
      let (negative, rest) := readSign rest
      match readDigits rest with
      | ([], _) => none
      | (ds, []) => some (if negative then -(ofDigits ds : Int) else ofDigits ds)
      | _ => none
    else none

/-- A decimal without a sign: digits with a point among them or at either end, and an
exponent. -/
def read? (cs : List Char) : Option Decimal :=
  let (whole, rest) := readDigits cs
  let (fraction, rest) := match rest with
    | '.' :: rest => readDigits rest
    | _ => ([], rest)
  if whole.isEmpty && fraction.isEmpty then none
  else (readExponent? rest).map fun e => ⟨ofDigits (whole ++ fraction), e - fraction.length⟩

end Decimal

/-- The number that a text denotes: a decimal, an infinity or NaN, with an optional sign and
blanks around it. -/
def Binary.read? {f : Format} (text : String) : Option (Binary f) :=
  let (negative, cs) := Decimal.readSign (Text.trim text.toList)
  let word := String.ofList (cs.map Char.toLower)
  if word = "inf" || word = "infinity" then some (if negative then -infinity else infinity)
  else if word = "nan" then some nan
  else (Decimal.read? cs).map (.ofDecimal negative)

end LinearAssignment
