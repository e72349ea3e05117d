import Splice.Expr.Parse
import Splice.Expr.Script
import Splice.Log
import Splice.Token.Scan

/-!
# Programs

A program is run towards a goal: its value, its script or its tokens. A run has an outcome and a
list of events. Nothing is parsed if scanning failed, and nothing is evaluated or written if
parsing failed.
-/

namespace Splice

/-- What a program is run for. -/
inductive Goal where
  | value
  | script
  | tokens
deriving DecidableEq

inductive Product where
  | value (v : Value)
  | script (text : String)
  | tokens (tokens : List Token)

/-- Why a command gives nothing. -/
inductive Failure where
  /-- Scanning found a problem. -/
  | scan
  /-- Parsing found a problem. -/
  | parse
  | json (reason : String)
  | io (reason : String)
  /-- There was nothing to read a program from. -/
  | noInput
deriving DecidableEq

namespace Failure

def message : Failure → String
  | scan => "lexer error"
  | parse => "parser error"
  | json reason => "JSON error: " ++ reason
  | io reason => "IO error: " ++ reason
  | noInput => "No input provided. Pass a file, use -e, or pipe source to stdin."

/-- The reason that lies under a failure, if it has one. -/
def reason? : Failure → Option String
  | json reason | io reason => some reason
  | _ => none

end Failure

/-- The outcome of a run, and what happened in it. -/
structure Run (α : Type) where
  events : List Event
  outcome : Except Failure α

/-! ## Token lists as JSON -/

/-- The JSON object of a token, its members in the order of their names. -/
def Token.toJson (t : Token) : Json :=
  .object [("kind", .string t.kind.label), ("line", .number (Nat.toDigits 10 t.line)),
    ("position", .number (Nat.toDigits 10 t.offset)), ("raw", .string t.raw)]

/-- The JSON text of a token list. -/
def tokenList (l : Json.Layout) (tokens : List Token) : String :=
  (Json.array (tokens.map Token.toJson)).render l .standard

namespace Product

/-- The text of what a run gives; the layout is for values and tokens. -/
def text (l : Json.Layout) : Product → String
  | value v => v.toJson.render l .printable
  | script s => s
  | tokens ts => tokenList l ts

end Product

/-! ## Running -/

namespace Pass

/-- What happens in a pass. -/
def events (p : Pass) (text : List Char) (failed : Bool) : List Event :=
  p.problems.map (fun problem => .diagnosed ⟨problem, text⟩) ++ [.scanned p.scanned.length failed]

end Pass

/-- The parse of a token list, and what happens in it. An empty program is not parsed. -/
def parseRun (tokens : List Token) (text : List Char) : Run (Option Expr) :=
  match parse tokens (Text.utf8Length text) with
  | .ok none => ⟨[], .ok none⟩
  | .ok (some e) => ⟨[.parsed false], .ok (some e)⟩
  | .error m => ⟨[.diagnosed ⟨m.problem text, text⟩, .parsed true], .error .parse⟩

/-- The value of a program, and what happens in its evaluation. -/
def evalRun (root : Option Expr) : Run Value :=
  ⟨(root.map fun e => Event.evaluating e.token.line).toList, .ok (Expr.evalRoot root)⟩

/-- The script of a program, and what happens in writing it. -/
def scriptRun (root : Option Expr) : Run String :=
  let script := Expr.scriptRoot root
  ⟨(root.map Expr.emptyMerges).getD [] |>.map (.leftOut ·.line) |>.concat (.compiled script.utf8ByteSize),
    .ok script⟩

namespace Run

/-- A run followed by another on what it gives. -/
def andThen {α β : Type} (r : Run α) (f : α → Run β) : Run β :=
  match r.outcome with
  | .ok a => ⟨r.events ++ (f a).events, (f a).outcome⟩
  | .error e => ⟨r.events, .error e⟩

def map {α β : Type} (f : α → β) (r : Run α) : Run β := ⟨r.events, r.outcome.map f⟩

def diagnostics {α : Type} (r : Run α) : List Diagnostic := Splice.diagnostics r.events

end Run

/-- The tokens of a source, and what happens in scanning it. -/
def scanRun (source : Source) : Run (List Token) :=
  let reader := Reader.ofSource source
  let failed := reader.next.failed
  ⟨reader.pass.events source.text failed, if failed then .error .scan else .ok reader.tokens⟩

def runSource (goal : Goal) (source : Source) : Run Product :=
  (scanRun source).andThen fun tokens =>
    match goal with
    | .tokens => ⟨[], .ok (.tokens tokens)⟩
    | .value => ((parseRun tokens source.text).andThen evalRun).map .value
    | .script => ((parseRun tokens source.text).andThen scriptRun).map .script

def run (goal : Goal) (octets : List UInt8) : Run Product := runSource goal (.ofOctets octets)

end Splice
