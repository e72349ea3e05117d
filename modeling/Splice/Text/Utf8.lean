/-!
# UTF-8

Octets as characters. Decoding never fails: a maximal malformed part stands for one replacement
character. It reads one octet at a time, keeping the character that has begun, so every octet goes
into exactly one piece.
-/

namespace Splice.Text

/-- A piece of an octet string: an encoded character, or a malformed part. -/
inductive Piece where
  | encoded (c : Char)
  | malformed (octets : List UInt8)
deriving DecidableEq

namespace Piece

/-- The character a piece stands for. -/
def char : Piece → Char
  | encoded c => c
  | malformed _ => '\uFFFD'

def octets : Piece → List UInt8
  | encoded c => String.utf8EncodeChar c
  | malformed octets => octets

def size : Piece → Nat
  | encoded c => c.utf8Size
  | malformed octets => octets.length

def isEncoded : Piece → Bool
  | encoded _ => true
  | malformed _ => false

theorem length_octets (p : Piece) : p.octets.length = p.size := by
  cases p <;> simp [octets, size]

end Piece

/-- A character whose encoding has begun: its octets so far, the bits they carry, how many octets
are due, and the range the next one must lie in. -/
structure Begun where
  octets : List UInt8
  bits : Nat
  due : Nat
  low : Nat
  high : Nat
deriving DecidableEq

namespace Begun

/-- What a leading octet begins. The range of the second octet shuts out overlong forms,
surrogates and code points past the last. -/
def lead? (b : UInt8) : Option Begun :=
  let n := b.toNat
  if 0xC2 ≤ n ∧ n ≤ 0xDF then some ⟨[b], n - 0xC0, 1, 0x80, 0xBF⟩
  else if n = 0xE0 then some ⟨[b], 0, 2, 0xA0, 0xBF⟩
  else if n = 0xED then some ⟨[b], 0xD, 2, 0x80, 0x9F⟩
  else if 0xE1 ≤ n ∧ n ≤ 0xEF then some ⟨[b], n - 0xE0, 2, 0x80, 0xBF⟩
  else if n = 0xF0 then some ⟨[b], 0, 3, 0x90, 0xBF⟩
  else if 0xF1 ≤ n ∧ n ≤ 0xF3 then some ⟨[b], n - 0xF0, 3, 0x80, 0xBF⟩
  else if n = 0xF4 then some ⟨[b], 4, 3, 0x80, 0x8F⟩
  else none

/-- Whether an octet goes on with the character. -/
def accepts (s : Begun) (b : UInt8) : Bool := s.low ≤ b.toNat && b.toNat ≤ s.high

/-- The bits after one more octet, which carries six. -/
def bitsWith (s : Begun) (b : UInt8) : Nat := s.bits * 64 + (b.toNat - 0x80)

end Begun

/-- What an octet gives when no character has begun. -/
def openWith (b : UInt8) : List Piece × Option Begun :=
  if b.toNat < 0x80 then ([.encoded (Char.ofNat b.toNat)], none)
  else match Begun.lead? b with
    | some s => ([], some s)
    | none => ([.malformed [b]], none)

/-- What an octet gives: the pieces it completes, and the character that has begun after it. -/
def feed : Option Begun → UInt8 → List Piece × Option Begun
  | none, b => openWith b
  | some s, b =>
    if s.accepts b then
      if s.due = 1 then ([.encoded (Char.ofNat (s.bitsWith b))], none)
      else ([], some ⟨s.octets ++ [b], s.bitsWith b, s.due - 1, 0x80, 0xBF⟩)
    else (.malformed s.octets :: (openWith b).1, (openWith b).2)

/-- The pieces of an octet string, after the character that has begun. -/
def decodeFrom : Option Begun → List UInt8 → List Piece
  | none, [] => []
  | some s, [] => [.malformed s.octets]
  | s, b :: bs => (feed s b).1 ++ decodeFrom (feed s b).2 bs

def decode (octets : List UInt8) : List Piece := decodeFrom none octets

def encode (text : List Char) : List UInt8 := text.flatMap String.utf8EncodeChar

def isWellFormed (octets : List UInt8) : Bool := (decode octets).all Piece.isEncoded

def characters (octets : List UInt8) : List Char := (decode octets).map Piece.char

def utf8Length : List Char → Nat
  | [] => 0
  | c :: cs => c.utf8Size + utf8Length cs

/-- The first characters of a text that take exactly so many octets, if the count falls between
two characters. -/
def takeOctets? : Nat → List Char → Option (List Char)
  | 0, _ => some []
  | _ + 1, [] => none
  | n + 1, c :: cs =>
    if c.utf8Size ≤ n + 1 then (takeOctets? (n + 1 - c.utf8Size) cs).map (c :: ·) else none

end Splice.Text
