import Splice.Source

/-!
# Diagnostics

A problem says what is wrong, where, and with which text. A diagnostic is a problem together with
the text it was found in; it has a message, and an excerpt with carets under the place.
-/

namespace Splice

inductive Fault where
  /-- A character begins no token. -/
  | unknownCharacter
  /-- A string lacks its closing quote. -/
  | openString
  /-- A line or the input ends inside a template. -/
  | openTemplate
  /-- The text of a number is no numeral. -/
  | badNumber
  /-- A token cannot stand where it does. -/
  | misplacedToken
  /-- A list or merge opens inside so many others that no more may open. -/
  | tooDeep (limit : Nat)
deriving DecidableEq

/-- A fault and where it is; line and column count from zero. -/
structure Problem where
  fault : Fault
  line : Nat
  column : Nat
  text : String
deriving DecidableEq

namespace Problem

/-- The number of carets: one for each character of the text, and one for an empty text. -/
def width (p : Problem) : Nat := max 1 p.text.length

/-- What the fault is called, with the text where it matters. -/
def complaint (p : Problem) : String :=
  match p.fault with
  | .unknownCharacter => "Unknown token '" ++ p.text ++ "'"
  | .openString => "Unterminated String"
  | .openTemplate => "Unexpected Newline or EOF"
  | .badNumber => "Invalid floating point number '" ++ p.text ++ "'"
  | .misplacedToken => "Unexpected token '" ++ p.text ++ "'"
  | .tooDeep limit => "Expression nested deeper than " ++ toString limit ++ " levels"

/-- The message, with line and column counted from one. -/
def message (p : Problem) : String :=
  "err: " ++ p.complaint ++ " at [l " ++ toString (p.line + 1) ++ ":" ++ toString (p.column + 1)
    ++ "]"

end Problem

/-! ## Excerpts -/

/-- A line number in three places, or more if it needs them. -/
def lineNumber (n : Nat) : List Char :=
  let digits := Nat.toDigits 10 n
  List.replicate (3 - digits.length) '0' ++ digits

/-- A line of a text without the carriage returns at its end; nothing if there is no such line. -/
def shownLine (text : List Char) (line : Nat) : List Char :=
  (((lines text)[line]?.getD []).reverse.dropWhile (· == '\r')).reverse

/-- A numbered line of an excerpt; lines count from zero. -/
def excerptLine (text : List Char) (line : Nat) : List Char :=
  lineNumber (line + 1) ++ " |\t".toList ++ shownLine text line ++ ['\n']

/-- The carets under the columns from `column` on, at least one. -/
def caretLine (column width : Nat) : List Char :=
  '\t' :: List.replicate column ' ' ++ List.replicate (max width 1) '^' ++ ['\n']

/-- The line before a place if there is one, the line of the place, and the carets under it,
between blank lines. -/
def excerpt (text : List Char) (line column width : Nat) : List Char :=
  '\n' :: (match line with
    | 0 => []
    | before + 1 => excerptLine text before)
    ++ excerptLine text line ++ caretLine column width ++ ['\n']

structure Diagnostic where
  problem : Problem
  source : List Char
deriving DecidableEq

def Diagnostic.excerpt (d : Diagnostic) : List Char :=
  Splice.excerpt d.source d.problem.line d.problem.column d.problem.width

end Splice
