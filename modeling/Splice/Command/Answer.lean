import Splice.Command.Invocation
import Splice.Session

/-!
# Answers

What the command answers to its arguments, given what surrounds it: its standard input, the files
it may read and the variable of its log. The packages it is built on, which read its arguments and
write its log, are parameters.
-/

namespace Splice.Command

/-- What reading the standard input gives: its octets, or why it cannot be read. -/
inductive Reading where
  | octets (octets : List UInt8)
  | failed (reason : String)
deriving DecidableEq

instance : Coe (List UInt8) Reading := ⟨.octets⟩

/-- What surrounds the command. -/
structure Surroundings where
  /-- The standard input, unless it is a terminal. -/
  stdin : Option Reading
  /-- The octets of a file, or why it cannot be read. -/
  file : String → Except String (List UInt8)
  /-- The variable that asks for a filter of the log, if it is set. -/
  level : Option String

/-- The packages that the command is built on. -/
structure Packages (Filter : Type) where
  read : List String → Invocation
  logger : Logger Filter

def readInput (w : Surroundings) : Input → Except Failure (List UInt8)
  | .text program => .ok (Text.encode program.toList)
  | .file path => (w.file path).mapError .io
  | .stdin => match w.stdin with
    | some (.octets octets) => .ok octets
    | some (.failed reason) => .error (.io reason)
    | none => .error .noInput

namespace Answer

/-- The answer that is written after something else. -/
def after (written : Written) (a : Answer) : Answer := ⟨written ++ a.toWritten, a.exit⟩

/-- The answer to what was done: a text. -/
def ok (text : String) : Answer := ⟨Output.out.write text, 0⟩

/-- The answer to a failure: a line on the error output. -/
def failed (e : Failure) : Answer := ⟨Output.err.write (e.message ++ "\n"), 1⟩

variable (written : Written) (a : Answer) (text : String) (e : Failure)

@[simp] theorem exit_after : (after written a).exit = a.exit := rfl

@[simp] theorem out_after : (after written a).out = written.out ++ a.out := rfl

@[simp] theorem err_after : (after written a).err = written.err ++ a.err := rfl

@[simp] theorem exit_ok : (ok text).exit = 0 := rfl

@[simp] theorem out_ok : (ok text).out = text := rfl

@[simp] theorem err_ok : (ok text).err = "" := rfl

@[simp] theorem exit_failed : (failed e).exit = 1 := rfl

@[simp] theorem out_failed : (failed e).out = "" := rfl

@[simp] theorem err_failed : (failed e).err = e.message ++ "\n" := rfl

end Answer

/-- The answer to a program, with what is written while it runs. -/
def answerProgram (l : Json.Layout) (log : List Event → Written) (r : Run Product) : Answer :=
  .after (log r.events) <|
    match r.outcome with
    | .ok product => .ok (product.text l ++ "\n")
    | .error e => .failed e

def answerLines (goal : Goal) (log : List Event → Written) : List (List UInt8) → Answer
  | [] => .ok "\n"
  | line :: rest =>
    match Session.reply goal line with
    | .left => .ok "\n"
    | .broken => .failed Session.notText
    | .written events text =>
      .after (log events ++ Output.out.write (text ++ Session.prompt)) (answerLines goal log rest)

/-- The answer to a whole session. It prompts before it reads anything; a terminal counts as an input
with nothing in it. -/
def answerSession (goal : Goal) (log : List Event → Written) (stdin : Option Reading) : Answer :=
  .after (Output.out.write Session.prompt) <|
    match stdin with
    | none => .ok "\n"
    | some (.octets input) => answerLines goal log (Session.inputLines input)
    | some (.failed reason) => .failed (.io reason)

def answerSubcommand (w : Surroundings) (log : List Event → Written) (c : Subcommand)
    (o : Options) : Answer :=
  match c with
  | .repl => answerSession (goalOf c o) log w.stdin
  | _ =>
    match readInput w o.input with
    | .ok octets => answerProgram (layoutOf o) log (run (goalOf c o) octets)
    | .error e => .failed e

def Packages.answer {Filter : Type} (p : Packages Filter) (w : Surroundings)
    (args : List String) : Answer :=
  match p.read args with
  | .settled a => a
  | .subcommand verbose c o =>
    answerSubcommand w (p.logger.log (p.logger.filterFor w.level verbose)) c o

end Splice.Command
