import Splice.Numeral

/-!
# Binary floating point

Numbers of 64 bits: a sign and a magnitude, the infinities, and one value that is no number.
Magnitudes are held by their rank, so the order of ranks is the order of magnitudes, and a rounding
that carries into the next power of two is an addition of ranks.
-/

namespace Splice

/-- The number of magnitudes that share a power of two, `2 ^ 52`. -/
abbrev block : Nat := 0x10000000000000

/-- The number of finite magnitudes: 2047 blocks. -/
abbrev magnitudes : Nat := 0x7FF0000000000000

/-- The number of magnitudes and other codes that share a sign, `2 ^ 63`. -/
abbrev half : Nat := 0x8000000000000000

/-- A number of 64 bits. Those that are no number are one value. -/
inductive Binary64 where
  | finite (negative : Bool) (rank : Fin magnitudes)
  | infinite (negative : Bool)
  | nan
deriving DecidableEq

namespace Binary64

/-- Magnitudes are multiples of `1 / unit`, the smallest one above zero. -/
def unit : Nat := Nat.pow 2 1074

/-- The power of two, over the smallest, that the magnitude of a rank is a multiple of. The first
block and the second share one. -/
def exponent (rank : Nat) : Nat := rank / block - 1

/-- The multiple: the magnitude of a rank is `significand · 2 ^ exponent / unit`. -/
def significand (rank : Nat) : Nat := rank - exponent rank * block

/-- The magnitude of a rank, in units. -/
def units (rank : Nat) : Nat := significand rank * Nat.pow 2 (exponent rank)

/-- The nearest natural number to `num / den`; a half goes to the even neighbour. -/
def roundHalfEven (num den : Nat) : Nat :=
  let floor := num / den
  let twice := 2 * (num % den)
  if twice < den then floor
  else if den < twice then floor + 1
  else floor + floor % 2

/-- The rank of the magnitude nearest to `num / den`, with no bound above. -/
def rankOf (num den : Nat) : Nat :=
  let power := (num * unit / den).log2 - 52
  power * block + roundHalfEven (num * unit) (den * Nat.pow 2 power)

/-- The number nearest to a fraction; past the last magnitude it is infinite. -/
def ofFraction (negative : Bool) (num den : Nat) : Binary64 :=
  if h : rankOf num den < magnitudes then .finite negative ⟨rankOf num den, h⟩
  else .infinite negative

def zero (negative : Bool) : Binary64 := .finite negative 0

/-- The number nearest to `coefficient · 10 ^ exponent`. Exponents beyond the reach of any
magnitude are settled without computing the power. -/
def ofDecimal (negative : Bool) (coefficient : Nat) (exponent : Int) : Binary64 :=
  if coefficient = 0 then zero negative
  else if 400 < exponent then .infinite negative
  else if exponent + (Nat.toDigits 10 coefficient).length < -400 then zero negative
  else match exponent with
    | .ofNat n => ofFraction negative (coefficient * Nat.pow 10 n) 1
    | .negSucc n => ofFraction negative coefficient (Nat.pow 10 (n + 1))

/-- The number a numeral denotes, rounded to the nearest. -/
def ofNumeral : Numeral → Binary64
  | .finite negative coefficient exponent => ofDecimal negative coefficient exponent
  | .infinite negative => .infinite negative
  | .nan => .nan

/-- The number that a text denotes as a numeral. -/
def read? (text : List Char) : Option Binary64 := (Numeral.read? text).map ofNumeral

/-- Numeric equality: no number equals itself if it is none, and the zeros are equal. -/
def numEq : Binary64 → Binary64 → Bool
  | .finite a r, .finite b q => r == q && (a == b || r == 0)
  | .infinite a, .infinite b => a == b
  | _, _ => false

def isFinite : Binary64 → Bool
  | .finite _ _ => true
  | _ => false

/-! ## Encoding -/

/-- The bits of a number; what is no number has many encodings and shows none. -/
def bits? : Binary64 → Option Nat
  | .finite negative rank => some (negative.toNat * half + rank)
  | .infinite negative => some (negative.toNat * half + magnitudes)
  | .nan => none

def ofBits (bits : Nat) : Binary64 :=
  let negative := bits.testBit 63
  let rank := bits % half
  if h : rank < magnitudes then .finite negative ⟨rank, h⟩
  else if rank = magnitudes then .infinite negative
  else .nan

end Binary64

end Splice
