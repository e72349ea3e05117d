import Splice.Text.Utf8

/-!
# Source texts

A source is a decoded octet string. Each of its characters has a location: the octets, lines and
columns before it. Offsets count the octets that were read, columns count characters.
-/

namespace Splice

open Text

/-- A place in a source: octets before it, line breaks before it, and characters before it on its
line. -/
structure Location where
  offset : Nat
  line : Nat
  column : Nat
deriving DecidableEq

namespace Location

def origin : Location := ⟨0, 0, 0⟩

/-- The location after one piece that starts here. -/
def after (l : Location) (p : Piece) : Location :=
  if p.char = '\n' then ⟨l.offset + p.size, l.line + 1, 0⟩
  else ⟨l.offset + p.size, l.line, l.column + 1⟩

/-- The location one octet further on the line. -/
def next (l : Location) : Location := ⟨l.offset + 1, l.line, l.column + 1⟩

end Location

/-- A character and where it is. -/
structure Located where
  char : Char
  place : Location
deriving DecidableEq

/-- The characters of pieces that start at a location. -/
def locate : Location → List Piece → List Located
  | _, [] => []
  | l, p :: ps => ⟨p.char, l⟩ :: locate (l.after p) ps

@[simp] theorem map_char_locate (l : Location) (ps : List Piece) :
    (locate l ps).map Located.char = ps.map Piece.char := by
  induction ps generalizing l with
  | nil => rfl
  | cons p ps ih => simp [locate, ih]

theorem locate_append (l : Location) (ps qs : List Piece) :
    locate l (ps ++ qs) = locate l ps ++ locate (ps.foldl Location.after l) qs := by
  induction ps generalizing l with
  | nil => rfl
  | cons p ps ih => simp [locate, ih]

/-- A source: the pieces of an octet string. -/
structure Source where
  pieces : List Piece
deriving DecidableEq

namespace Source

/-- The source that an octet string decodes to. -/
def ofOctets (octets : List UInt8) : Source := ⟨decode octets⟩

def ofText (text : List Char) : Source := ⟨text.map Piece.encoded⟩

def text (s : Source) : List Char := s.pieces.map Piece.char

def located (s : Source) : List Located := locate .origin s.pieces

/-- The location after the last character. -/
def stop (s : Source) : Location := s.pieces.foldl Location.after .origin

@[simp] theorem map_char_located (s : Source) : s.located.map Located.char = s.text :=
  map_char_locate _ _

end Source

/-- The lines of a text: what stands between its line feeds. -/
def lines (text : List Char) : List (List Char) := text.splitOn '\n'

end Splice
