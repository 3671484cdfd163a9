import LinearAssignment.Decimal.Shortest

/-!
The text of a number: its shortest decimal, written positionally when the number is of
moderate size and with an exponent otherwise.
-/
namespace LinearAssignment

/-- How a decimal is laid out. With `point` digits before the decimal point, the text is
positional if `lowPoint < point ≤ highPoint`; otherwise it has an exponent of at least
`exponentDigits` digits. -/
structure DecimalLayout where
  lowPoint : Int
  highPoint : Int
  exponentDigits : Nat

/-- Numbers from `0.0001` up to, but not including, `1e+16` are positional. -/
def DecimalLayout.standard : DecimalLayout := ⟨-4, 16, 2⟩

namespace Decimal

def paddedDigits (width n : Nat) : List Char :=
  let ds := Nat.toDigits 10 n
  List.replicate (width - ds.length) '0' ++ ds

/-- Positional notation: the digits with a point after the first `point` of them, filled up
with zeros on either side. A whole number keeps the fraction `.0`. -/
def positional (digits : List Char) (point : Int) : List Char :=
  if point ≤ 0 then '0' :: '.' :: (List.replicate (-point).toNat '0' ++ digits)
  else
    let k := point.toNat
    if digits.length ≤ k then digits ++ List.replicate (k - digits.length) '0' ++ ['.', '0']
    else digits.take k ++ '.' :: digits.drop k

def scientific (width : Nat) (digits : List Char) (point : Int) : List Char :=
  let mantissa := match digits with
    | d :: e :: rest => d :: '.' :: e :: rest
    | short => short
  let exponent := point - 1
  mantissa ++ 'e' :: (if exponent < 0 then '-' else '+') :: paddedDigits width exponent.natAbs

def layOut (l : DecimalLayout) (d : Decimal) : List Char :=
  let digits := Nat.toDigits 10 d.significand
  let point : Int := digits.length + d.exponent
  if l.lowPoint < point ∧ point ≤ l.highPoint then positional digits point
  else scientific l.exponentDigits digits point

end Decimal

/-- The text of a number: the fewest digits that read back. -/
def Binary.text {f : Format} : Binary f → String
  | .nan => "nan"
  | .number s a _ =>
    let sign := if s then ['-'] else []
    if f.ceiling ≤ a then String.ofList (sign ++ ['i', 'n', 'f'])
    else String.ofList (sign ++ (Decimal.shortest f a).layOut DecimalLayout.standard)

end LinearAssignment
