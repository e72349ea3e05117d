import Splice.Program

/-!
# Invocations

What the command can be asked to do: to run a subcommand with its options. What its arguments ask
for is told by a package that reads them; it may also answer them itself, as it does when they make
no sense.
-/

namespace Splice.Command

/-- What the command answers: its exit code, and what it writes. -/
structure Answer extends Written where
  exit : Nat
deriving DecidableEq

inductive Subcommand where
  | run
  | compile
  | lex
  | repl
deriving DecidableEq

/-- The options of a subcommand. The program is the text of `--execute` if it is given, else it is
in the file. -/
structure Options where
  pretty : Bool
  compile : Bool
  execute : Option String
  file : Option String
deriving DecidableEq

/-- What the arguments ask for. -/
inductive Invocation where
  /-- Nothing but an answer of the package that read them. -/
  | settled (a : Answer)
  | subcommand (verbose : Bool) (c : Subcommand) (o : Options)
deriving DecidableEq

inductive Input where
  | text (program : String)
  | file (path : String)
  | stdin
deriving DecidableEq

def Options.input (o : Options) : Input :=
  match o.execute, o.file with
  | some program, _ => .text program
  | none, some path => .file path
  | none, none => .stdin

/-- What a subcommand runs its programs for. -/
def goalOf (c : Subcommand) (o : Options) : Goal :=
  match c with
  | .run => .value
  | .compile => .script
  | .lex => .tokens
  | .repl => if o.compile then .script else .value

def layoutOf (o : Options) : Json.Layout := if o.pretty then .indented else .compact

end Splice.Command
