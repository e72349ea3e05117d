import Splice.Text.Character

/-!
# JSON texts

A JSON tree and its text. A layout says where lines break, an escaping says which characters of a
string are written otherwise than as themselves. Numbers are kept as they are spelled, and the
members of an object in the order they are written.
-/

namespace Splice

/-- A JSON text as a tree. -/
inductive Json where
  | null
  | boolean (b : Bool)
  | number (literal : List Char)
  | string (s : String)
  | array (items : List Json)
  | object (members : List (String × Json))

namespace Json

/-! ## Strings -/

/-- Which characters of a string are escaped: some by a letter, and a class of others by their
code point. -/
structure Escaping where
  letters : List (Char × Char)
  byCode : Char → Bool

/-- The escaping of the standard: the short forms, and the code points below the space. -/
def Escaping.standard : Escaping :=
  ⟨[('"', '"'), ('\\', '\\'), ('\x08', 'b'), ('\x0c', 'f'), ('\n', 'n'), ('\r', 'r'), ('\t', 't')],
    fun c => c.toNat < 0x20⟩

/-- An escaping that leaves no control character in the text. -/
def Escaping.printable : Escaping :=
  ⟨[('"', '"'), ('\\', '\\'), ('\n', 'n'), ('\r', 'r'), ('\t', 't')], Text.isControl⟩

/-- The last `width` hexadecimal digits of a number, in lower case. -/
def hexDigits : Nat → Nat → List Char
  | 0, _ => []
  | width + 1, n => hexDigits width (n / 16) ++ [Nat.digitChar (n % 16)]

/-- A character of a string as it is written. -/
def Escaping.escape (e : Escaping) (c : Char) : List Char :=
  match e.letters.lookup c with
  | some letter => ['\\', letter]
  | none => if e.byCode c then '\\' :: 'u' :: hexDigits 4 c.toNat else [c]

def quote (e : Escaping) (s : List Char) : List Char := '"' :: s.flatMap e.escape ++ ['"']

/-! ## Layouts -/

/-- Where lines break: what is written before an element or a closing bracket that stands inside
so many brackets, and what is written between the name of a member and its value. -/
structure Layout where
  breakAt : Nat → List Char
  colon : List Char

/-- All on one line, without spaces. -/
def Layout.compact : Layout := ⟨fun _ => [], [':']⟩

/-- One element a line, two spaces for each bracket it is inside of. -/
def Layout.indented : Layout := ⟨fun depth => '\n' :: List.replicate (2 * depth) ' ', [':', ' ']⟩

/-- Texts between brackets, separated by commas; nothing is between the brackets of an empty
list. -/
def Layout.bracketed (l : Layout) (depth : Nat) (first last : Char) (texts : List (List Char)) :
    List Char :=
  match texts with
  | [] => [first, last]
  | _ => first :: List.intercalate [','] (texts.map (l.breakAt (depth + 1) ++ ·))
      ++ l.breakAt depth ++ [last]

mutual

/-- The text of a tree that stands inside so many brackets. -/
def write (l : Layout) (e : Escaping) (depth : Nat) : Json → List Char
  | .null => "null".toList
  | .boolean b => if b then "true".toList else "false".toList
  | .number literal => literal
  | .string s => quote e s.toList
  | .array items => l.bracketed depth '[' ']' (writeItems l e (depth + 1) items)
  | .object members => l.bracketed depth '{' '}' (writeMembers l e (depth + 1) members)

def writeItems (l : Layout) (e : Escaping) (depth : Nat) : List Json → List (List Char)
  | [] => []
  | x :: xs => write l e depth x :: writeItems l e depth xs

def writeMembers (l : Layout) (e : Escaping) (depth : Nat) :
    List (String × Json) → List (List Char)
  | [] => []
  | (name, x) :: rest =>
    (quote e name.toList ++ l.colon ++ write l e depth x) :: writeMembers l e depth rest

end

def render (l : Layout) (e : Escaping) (j : Json) : String := String.ofList (write l e 0 j)

end Json

end Splice
