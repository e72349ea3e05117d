import Splice.Diagnostic
import Splice.Expr

/-!
# Parsing

From tokens to an expression, one token at a time:

```text
program    := expression?
expression := FLOAT | STRING | BOOL | '[' expression* ']' | '(' '++' expression* ')'
```

Lists and merges that are still open are a stack of frames, at most `maxNesting` of them. The first
token that does not fit ends the parse.
-/

namespace Splice

/-- How many lists and merges may be open at once. -/
def maxNesting : Nat := 256

/-- A list or merge that is still open: its token, and the expressions in it, the latest first. -/
inductive Frame where
  | list (token : Token) (items : List Expr)
  | merge (token : Token) (operands : List Expr)

/-- A token that does not fit, and why. -/
structure Misfit where
  fault : Fault
  token : Token
deriving DecidableEq

/-- A parse so far. -/
inductive Parse where
  /-- An expression is due, or the end of the innermost frame. -/
  | inside (frames : List Frame)
  /-- The operator of a merge is due after its parenthesis. -/
  | opened (paren : Token) (frames : List Frame)
  /-- The expression is complete. -/
  | complete (root : Expr)
  | failed (misfit : Misfit)

namespace Frame

def push (e : Expr) : Frame → Frame
  | list t items => list t (e :: items)
  | merge t operands => merge t (e :: operands)

end Frame

namespace Parse

/-- The parse after a finished expression, which goes into the innermost frame. -/
def place (e : Expr) : List Frame → Parse
  | [] => complete e
  | f :: frames => inside (f.push e :: frames)

/-- The parse after a token that cannot stand where it does. -/
def misplaced (t : Token) : Parse := failed ⟨.misplacedToken, t⟩

/-- The parse after a new frame, which the given token opens. -/
def enter (opening : Token) (f : Frame) (frames : List Frame) : Parse :=
  if frames.length < maxNesting then inside (f :: frames)
  else failed ⟨.tooDeep maxNesting, opening⟩

/-- The number that the text of a token denotes; underscores only separate its digits. -/
def number? (raw : String) : Option Binary64 :=
  Binary64.read? (raw.toList.filter (· != '_'))

/-- The parse after a token where an expression or the end of a frame is due. -/
def stepInside (frames : List Frame) (t : Token) : Parse :=
  match t.kind with
  | .number =>
    match number? t.raw with
    | some x => place (.number t x) frames
    | none => failed ⟨.badNumber, t⟩
  | .string => place (.string t t.raw) frames
  | .boolean => place (.boolean t (t.raw == "true")) frames
  | .openBracket => enter t (.list t []) frames
  | .openParen => opened t frames
  | .closeBracket =>
    match frames with
    | .list opening items :: outer => place (.list opening items.reverse) outer
    | _ => misplaced t
  | .closeParen =>
    match frames with
    | .merge operator operands :: outer => place (.merge operator operands.reverse) outer
    | _ => misplaced t
  | _ => misplaced t

def step : Parse → Token → Parse
  | inside frames, t => stepInside frames t
  | opened paren frames, t =>
    if t.kind = .merge then enter paren (.merge t []) frames else misplaced t
  | complete _, t => misplaced t
  | failed misfit, _ => failed misfit

/-- The outcome of a parse that the end of the input follows. -/
def finish (last : Token) : Parse → Except Misfit Expr
  | complete root => .ok root
  | failed misfit => .error misfit
  | _ => .error ⟨.misplacedToken, last⟩

end Parse

/-- The tokens before the end of the input. -/
def beforeEnd (tokens : List Token) : List Token := tokens.takeWhile (·.kind != .eof)

/-- The token that ends the input; if there is none it is taken to stand after all octets of the
text. -/
def endToken (tokens : List Token) (octets : Nat) : Token :=
  (tokens.find? (·.kind == .eof)).getD (.atEnd octets 0)

/-- The expression of a program; an empty program has none. -/
def parse (tokens : List Token) (octets : Nat) : Except Misfit (Option Expr) :=
  match beforeEnd tokens with
  | [] => .ok none
  | t :: ts =>
    (((t :: ts).foldl Parse.step (.inside [])).finish (endToken tokens octets)).map some

/-- The column of an offset into the encoded text: the characters between the last line feed and
it. An offset inside a character or past the end has column zero. -/
def columnAt (text : List Char) (offset : Nat) : Nat :=
  match Text.takeOctets? offset text with
  | some before => (before.reverse.takeWhile (· != '\n')).length
  | none => 0

/-- The problem that a misfit is in a text. -/
def Misfit.problem (m : Misfit) (text : List Char) : Problem :=
  ⟨m.fault, m.token.line, columnAt text m.token.offset, m.token.shown⟩

end Splice
