/-!
# Numerals

Decimal numerals as text: reading them, and writing a coefficient and an exponent in positional
notation.
-/

namespace Splice

/-- What a numeral denotes: `coefficient · 10 ^ exponent` with a sign, an infinity, or no number. -/
inductive Numeral where
  | finite (negative : Bool) (coefficient : Nat) (exponent : Int)
  | infinite (negative : Bool)
  | nan
deriving DecidableEq

namespace Numeral

def valueOf (digits : List Char) : Nat := Nat.ofDigitChars 10 digits 0

/-- A leading sign, and what follows it. -/
def readSign : List Char → Bool × List Char
  | '-' :: cs => (true, cs)
  | '+' :: cs => (false, cs)
  | cs => (false, cs)

/-- The digits after a decimal point, and what follows them; none if there is no point. -/
def readFraction : List Char → List Char × List Char
  | '.' :: cs => (cs.takeWhile Char.isDigit, cs.dropWhile Char.isDigit)
  | cs => ([], cs)

/-- An exponent that takes up the whole text; an empty text is exponent zero. -/
def readExponent? : List Char → Option Int
  | [] => some 0
  | e :: cs =>
    let (negative, digits) := readSign cs
    if (e = 'e' ∨ e = 'E') ∧ digits ≠ [] ∧ digits.all Char.isDigit = true then
      some (if negative then -valueOf digits else valueOf digits)
    else none

/-- A numeral without a sign: digits with at most one point among them, and an exponent. -/
def readFinite? (negative : Bool) (cs : List Char) : Option Numeral :=
  let whole := cs.takeWhile Char.isDigit
  let (fraction, rest) := readFraction (cs.dropWhile Char.isDigit)
  if whole = [] ∧ fraction = [] then none
  else (readExponent? rest).map fun exponent =>
    .finite negative (valueOf (whole ++ fraction)) (exponent - fraction.length)

/-- The numeral that a whole text is, if it is one: a sign or none, and then `inf`, `infinity` or
`nan` in any case, or a finite numeral. -/
def read? (text : List Char) : Option Numeral :=
  let (negative, body) := readSign text
  let folded := body.map Char.toLower
  if folded = "inf".toList ∨ folded = "infinity".toList then some (.infinite negative)
  else if folded = "nan".toList then some .nan
  else readFinite? negative body

end Numeral

/-! ## Positional notation -/

/-- A text without the zeros at its end. -/
def trimZeros (digits : List Char) : List Char := (digits.reverse.dropWhile (· == '0')).reverse

/-- `coefficient · 10 ^ exponent` in positional notation: no exponent, a point only before a
fraction, no zeros at the end of the fraction. -/
def positional (coefficient : Nat) (exponent : Int) : List Char :=
  let digits := Nat.toDigits 10 coefficient
  match exponent with
  | .ofNat n => if coefficient = 0 then digits else digits ++ List.replicate n '0'
  | .negSucc n =>
    let places := n + 1
    let padded := List.replicate (places + 1 - digits.length) '0' ++ digits
    let whole := padded.take (padded.length - places)
    let fraction := trimZeros (padded.drop (padded.length - places))
    if fraction = [] then whole else whole ++ '.' :: fraction

end Splice
