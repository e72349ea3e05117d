import Splice.Diagnostic

/-!
# Events and the log

What happens in a run, in order, and what is written of it while it runs. Each event is a record for
the log, and a diagnostic is followed by its excerpt. How a log filters its records and how it
spells them is left to a package (`Logger`), of which the program relies on little
(`Logger.Lawful`).
-/

namespace Splice

/-- Something that happens in a run. Lines count from zero. -/
inductive Event where
  /-- A problem was found. -/
  | diagnosed (d : Diagnostic)
  /-- A pass scanned so many tokens. -/
  | scanned (tokens : Nat) (failed : Bool)
  /-- A parse ended. -/
  | parsed (failed : Bool)
  /-- An expression on a line is evaluated. -/
  | evaluating (line : Nat)
  /-- A merge without operands was left out of a script. -/
  | leftOut (line : Nat)
  /-- A script of so many octets was written. -/
  | compiled (octets : Nat)
deriving DecidableEq

namespace Event

def diagnostic? : Event → Option Diagnostic
  | diagnosed d => some d
  | _ => none

end Event

def diagnostics (events : List Event) : List Diagnostic := events.filterMap Event.diagnostic?

/-! ## Records -/

inductive Severity where
  | error
  | debug
deriving DecidableEq

inductive Field where
  | natural (n : Nat)
  | flag (b : Bool)
deriving DecidableEq

/-- What a log is told of an event. The target is the part of the program it comes from. -/
structure Record where
  severity : Severity
  target : String
  message : String
  fields : List (String × Field)
deriving DecidableEq

/-- The record of an event. Lines and columns count from one in it. -/
def Event.record : Event → Record
  | diagnosed d => ⟨.error, "sophia_lang::diagnostics", d.problem.message,
      [("line", .natural (d.problem.line + 1)), ("column", .natural (d.problem.column + 1))]⟩
  | scanned tokens failed => ⟨.debug, "sophia_lang::lexer", "lexing finished",
      [("tokens", .natural tokens), ("has_error", .flag failed)]⟩
  | parsed failed => ⟨.debug, "sophia_lang::parser", "parsing finished",
      [("has_error", .flag failed)]⟩
  | evaluating line => ⟨.debug, "sophia_lang::evaluator", "evaluating",
      [("line", .natural (line + 1))]⟩
  | leftOut line => ⟨.debug, "sophia_lang::ast::merge",
      "opt: removed illogical '++' expression containing no children",
      [("line", .natural (line + 1))]⟩
  | compiled octets => ⟨.debug, "sophia_lang::compiler", "compilation finished",
      [("bytes", .natural octets)]⟩

/-! ## Outputs -/

@[ext]
structure Written where
  out : String
  err : String
deriving DecidableEq

namespace Written

def nothing : Written := ⟨"", ""⟩

instance : Append Written := ⟨fun a b => ⟨a.out ++ b.out, a.err ++ b.err⟩⟩

@[simp] theorem out_nothing : nothing.out = "" := rfl

@[simp] theorem err_nothing : nothing.err = "" := rfl

@[simp] theorem out_append (a b : Written) : (a ++ b).out = a.out ++ b.out := rfl

@[simp] theorem err_append (a b : Written) : (a ++ b).err = a.err ++ b.err := rfl

end Written

inductive Output where
  | out
  | err
deriving DecidableEq

/-- A text on one of the outputs, and nothing on the other. -/
def Output.write : Output → String → Written
  | out, text => ⟨text, ""⟩
  | err, text => ⟨"", text⟩

@[simp] theorem Output.write_empty (output : Output) : output.write "" = .nothing := by
  cases output <;> rfl

/-! ## Loggers -/

/-- A package that writes logs. -/
structure Logger (Filter : Type) where
  /-- The filter that a variable of the environment asks for, if its text makes sense. -/
  filter? : String → Option Filter
  /-- The filter that a text of the program asks for. -/
  filter : String → Filter
  /-- What is written for a record, by a log to one of the outputs that has a filter. -/
  write : Output → Filter → Record → Written

namespace Logger

variable {Filter : Type}

/-- What the program relies on. -/
structure Lawful (l : Logger Filter) : Prop where
  /-- A log writes to its own output only. -/
  stream : ∀ output filter record, ∃ text, l.write output filter record = output.write text
  /-- The word `off` asks for a filter that no record passes. -/
  off : ∃ filter, l.filter? "off" = some filter ∧
    ∀ output record, l.write output filter record = .nothing

/-- The filter of the log: the one that the environment asks for, or one that goes by the
verbosity. -/
def filterFor (l : Logger Filter) (level : Option String) (verbose : Bool) : Filter :=
  (level.bind l.filter?).getD (l.filter (if verbose then "debug" else "warn"))

/-- What is written when an event happens. -/
def tell (l : Logger Filter) (filter : Filter) (event : Event) : Written :=
  l.write .err filter event.record ++
    match event.diagnostic? with
    | some d => Output.err.write (String.ofList d.excerpt)
    | none => .nothing

def log (l : Logger Filter) (filter : Filter) : List Event → Written
  | [] => .nothing
  | event :: events => l.tell filter event ++ l.log filter events

end Logger

end Splice
