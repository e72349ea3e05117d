import Splice.Binary64

/-!
# Shortest decimal text

The text of a number has the fewest digits that read back as it; of two candidates with as many
digits the nearer one, and of two equally near the upper one. Notation is always positional.
-/

namespace Splice.Binary64

/-- The least `k` with `num / den < 10 ^ k`, for a positive fraction. -/
def decimalPlace (num den : Nat) : Int :=
  if den ≤ num then (Nat.toDigits 10 (num / den)).length
  else 1 - (Nat.toDigits 10 ((den - 1) / num)).length

/-- The neighbours of `num / den` on the multiples of `10 ^ place`: the multiple at or below it,
and whether the one above it is as near or nearer. -/
def neighbour (num den : Nat) (place : Int) : Nat × Bool :=
  let (n, d) := match place with
    | .ofNat p => (num, den * Nat.pow 10 p)
    | .negSucc p => (num * Nat.pow 10 (p + 1), den)
  (n / d, d ≤ 2 * (n % d))

/-- The two neighbours, the nearer one first. -/
def candidates (below : Nat) (upperFirst : Bool) : List Nat :=
  if upperFirst then [below + 1, below] else [below, below + 1]

/-- Whether a decimal reads back as the magnitude of a rank. -/
def readsAs (rank : Nat) (place : Int) (coefficient : Nat) : Bool :=
  match ofDecimal false coefficient place with
  | .finite _ r => r.val == rank
  | _ => false

/-- The nearer multiple of `10 ^ place` that reads back as the magnitude of a rank. -/
def withPlace? (rank : Nat) (place : Int) : Option (Nat × Int) :=
  let near := neighbour (units rank) unit place
  ((candidates near.1 near.2).find? (readsAs rank place)).map (·, place)

/-- A coefficient and an exponent with so many digits that read back as the magnitude of a rank. -/
def withDigits? (rank count : Nat) : Option (Nat × Int) :=
  withPlace? rank (decimalPlace (units rank) unit - count)

/-- The coefficient and exponent of the shortest decimal that reads back as the magnitude of a
rank. Seventeen digits are always enough; the exact decimal stands behind them. -/
def shortest (rank : Nat) : Nat × Int :=
  if rank = 0 then (0, 0)
  else ((List.range 17).findSome? fun n => withDigits? rank (n + 1)).getD
    (units rank * Nat.pow 5 1074, -1074)

def magnitudeText (rank : Nat) : List Char := positional (shortest rank).1 (shortest rank).2

def text : Binary64 → List Char
  | .finite negative rank =>
    if negative then '-' :: magnitudeText rank else magnitudeText rank
  | .infinite negative => if negative then "-inf".toList else "inf".toList
  | .nan => "NaN".toList

end Splice.Binary64
