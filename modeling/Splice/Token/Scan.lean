import Splice.Diagnostic
import Splice.Text.Character
import Splice.Token

/-!
# Scanning

From characters to tokens, one character at a time. What has been read of the current token is the
mode of the scan; a character either goes on with it or ends it and begins the next. A line feed
ends every token, so a scan is line by line: only an open template carries over, by stopping the
scan at the line feed. A later scan may go on from there.
-/

namespace Splice

open Text

/-- What a scan is inside of. Texts hold the characters read so far, the latest first. -/
inductive Mode where
  /-- Between tokens. -/
  | ground
  /-- After a `+`, which a second one makes a merge. -/
  | plus (start : Location)
  /-- After a `;`, which a second one makes a comment. -/
  | semicolon (start : Location)
  | comment
  | string (start : Location) (text : List Char)
  | word (start : Location) (text : List Char)
  | number (start : Location) (text : List Char)
  /-- In the literal text of a template. -/
  | template (text : List Located)
  /-- In the word of a template's slot. -/
  | slot (start : Location) (text : List Char)
  /-- Stopped in an open template. -/
  | stopped (place : Location)
deriving DecidableEq

/-- A scan so far: its mode, and the tokens and problems found, the latest first. -/
structure Scan where
  mode : Mode
  tokens : List Token
  problems : List Problem
deriving DecidableEq

namespace Scan

def fresh : Scan := ⟨.ground, [], []⟩

def into (s : Scan) (mode : Mode) : Scan := { s with mode }

def emit (s : Scan) (kind : Kind) (text : List Char) (start : Location) : Scan :=
  { s with tokens := ⟨kind, String.ofList text, start.offset, start.line⟩ :: s.tokens }

def report (s : Scan) (fault : Fault) (text : List Char) (line column : Nat) : Scan :=
  { s with problems := ⟨fault, line, column, String.ofList text⟩ :: s.problems }

/-- The scan with a character that begins no token: reported, and a token all the same. -/
def unknown (s : Scan) (x : Located) : Scan :=
  (s.report .unknownCharacter [x.char] x.place.line x.place.column).emit .unknown [x.char] x.place

/-- The scan with a word, whose text is given latest character first. -/
def word (s : Scan) (start : Location) (text : List Char) : Scan :=
  s.emit (.ofWord (String.ofList text.reverse)) text.reverse start

/-- The scan with the literal text of a template, unless it is empty. -/
def literal (s : Scan) (text : List Located) : Scan :=
  match text.reverse with
  | [] => s
  | x :: xs => s.emit .string ((x :: xs).map Located.char) x.place

/-- A character between tokens. -/
def begin (s : Scan) (x : Located) : Scan :=
  match x.char with
  | ' ' | '\t' | '\r' | '\n' => s.into .ground
  | '+' => s.into (.plus x.place)
  | ';' => s.into (.semicolon x.place)
  | '"' => s.into (.string x.place [])
  | '\'' => (s.emit .template [] x.place).into (.template [])
  | c =>
    match Kind.ofChar? c with
    | some kind => (s.emit kind [c] x.place).into .ground
    | none =>
      if isLetter c then s.into (.word x.place [c])
      else if c.isDigit then s.into (.number x.place [c])
      else (s.unknown x).into .ground

/-- A character in the literal text of a template. A closing brace stands for nothing there. -/
def inTemplate (s : Scan) (text : List Located) (x : Located) : Scan :=
  match x.char with
  | '}' => s.into (.template text)
  | '{' => (s.literal text).into (.slot x.place.next [])
  | '\'' => ((s.literal text).emit .template [] x.place.next).into .ground
  | '\n' =>
    (s.report .openTemplate [] x.place.line x.place.column).into (.stopped x.place)
  | _ => s.into (.template (x :: text))

/-- A character that goes on with a number. -/
def isNumeric (c : Char) : Bool := c.isDigit || c == '.' || c == '_' || c == 'e' || c == '-'

/-- The scan after one more character. -/
def step (s : Scan) (x : Located) : Scan :=
  match s.mode with
  | .ground => s.begin x
  | .plus start =>
    if x.char = '+' then (s.emit .merge ['+', '+'] start).into .ground
    else (s.emit .plus ['+'] start).begin x
  | .semicolon start =>
    if x.char = ';' then s.into .comment else (s.unknown ⟨';', start⟩).begin x
  | .comment => if x.char = '\n' then s.into .ground else s
  | .string start text =>
    if x.char = '"' then (s.emit .string text.reverse start).into .ground
    else if x.char = '\n' then
      ((s.report .openString text.reverse start.line (start.column + 1)).emit
        .string text.reverse start).into .ground
    else s.into (.string start (x.char :: text))
  | .word start text =>
    if isWord x.char then s.into (.word start (x.char :: text)) else (s.word start text).begin x
  | .number start text =>
    if isNumeric x.char then s.into (.number start (x.char :: text))
    else (s.emit .number text.reverse start).begin x
  | .template text => s.inTemplate text x
  | .slot start text =>
    if isWord x.char then s.into (.slot start (x.char :: text))
    else (s.word start text).inTemplate [] x
  | .stopped _ => s

def run (s : Scan) (chars : List Located) : Scan := chars.foldl step s

/-- The scan at the end of the input, which ends tokens as a line feed does. -/
def finish (s : Scan) (stop : Location) : Scan := s.step ⟨'\n', stop⟩

@[simp] theorem run_nil (s : Scan) : s.run [] = s := rfl

@[simp] theorem run_cons (s : Scan) (x : Located) (xs : List Located) :
    s.run (x :: xs) = (s.step x).run xs := rfl

theorem run_append (s : Scan) (xs ys : List Located) : s.run (xs ++ ys) = (s.run xs).run ys :=
  List.foldl_append

end Scan

/-- One pass over a source: the tokens it scanned, with the end of the input, the problems it
found, and the place where it ended. A pass that an open template stops scans no tokens. -/
structure Pass where
  scanned : List Token
  problems : List Problem
  ended : Location
deriving DecidableEq

namespace Pass

/-- The pass over some characters, before a given end. -/
def ofChars (chars : List Located) (stop : Location) : Pass :=
  let s := (Scan.fresh.run chars).finish stop
  match s.mode with
  | .stopped place => ⟨[], s.problems.reverse, place⟩
  | _ => ⟨s.tokens.reverse ++ [.atEnd stop.offset stop.line], s.problems.reverse, stop⟩

end Pass

/-- A reader of a source: the place where the next pass begins, and whether a pass has failed. -/
structure Reader where
  source : Source
  place : Location
  failed : Bool
deriving DecidableEq

namespace Reader

/-- A reader at the beginning of a source. -/
def ofSource (source : Source) : Reader := ⟨source, .origin, false⟩

/-- The pass from the reader's place on. -/
def pass (r : Reader) : Pass :=
  .ofChars (r.source.located.dropWhile (·.place.offset < r.place.offset)) r.source.stop

def next (r : Reader) : Reader :=
  ⟨r.source, r.pass.ended, r.failed || !r.pass.problems.isEmpty⟩

/-- The tokens the pass gives. After any failure the end of the input is all there is. -/
def tokens (r : Reader) : List Token :=
  if r.next.failed then [.atEnd r.pass.ended.offset r.pass.ended.line] else r.pass.scanned

end Reader

end Splice
