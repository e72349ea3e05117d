import Splice.Text.Alphabetic
import Splice.Text.Numeral

/-!
# Classes of characters

Letters, numerals, word characters, blanks and controls. A class is a list of ascending inclusive
ranges of code points, so a search stops at the first range past the character.
-/

namespace Splice.Text

def inRanges : List (Nat × Nat) → Nat → Bool
  | [], _ => false
  | (low, high) :: rest, n => low ≤ n && (n ≤ high || inRanges rest n)

/-- A letter: the Unicode property `Alphabetic`. -/
def isLetter (c : Char) : Bool := inRanges alphabetic c.toNat

/-- A numeral of any script: the general categories `Nd`, `Nl` and `No`. -/
def isNumeral (c : Char) : Bool := inRanges numeral c.toNat

/-- A character that goes on with a word: a letter, a numeral or `_`. -/
def isWord (c : Char) : Bool := isLetter c || isNumeral c || c == '_'

def whiteSpace : List (Nat × Nat) :=
  [(0x09, 0x0D), (0x20, 0x20), (0x85, 0x85), (0xA0, 0xA0), (0x1680, 0x1680), (0x2000, 0x200A),
   (0x2028, 0x2029), (0x202F, 0x202F), (0x205F, 0x205F), (0x3000, 0x3000)]

/-- A blank: the Unicode property `White_Space`. -/
def isBlank (c : Char) : Bool := inRanges whiteSpace c.toNat

/-- A control character: the general category `Cc`. -/
def isControl (c : Char) : Bool := c.toNat < 0x20 || 0x7F ≤ c.toNat && c.toNat ≤ 0x9F

/-- The text without the blanks at its two ends. -/
def trim (text : List Char) : List Char :=
  ((text.dropWhile isBlank).reverse.dropWhile isBlank).reverse

theorem inRanges_cons (low high : Nat) (rest : List (Nat × Nat)) (n : Nat) :
    inRanges ((low, high) :: rest) n = (low ≤ n && (n ≤ high || inRanges rest n)) := rfl

end Splice.Text
