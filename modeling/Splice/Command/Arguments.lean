import Splice.Command.Invocation

/-!
# Arguments

A plain reader of the arguments. Options stand before or after the subcommand: those of the command
before it, its own after it, and `--verbose` and `--help` in both places. Arguments are read from
left to right; the first that does not fit, or that asks for help or the version, is answered.
-/

namespace Splice.Command

namespace Subcommand

def named : List (String × Subcommand) :=
  [("run", run), ("compile", compile), ("lex", lex), ("repl", repl)]

/-- Whether a subcommand takes a program: a file, or the text of `--execute`. -/
def takesProgram (c : Subcommand) : Bool := c != repl

def takesPretty (c : Subcommand) : Bool := c == run || c == lex

def takesCompile (c : Subcommand) : Bool := c == repl

end Subcommand

namespace Answer

/-- The answer to arguments that make no sense. -/
def unusable : Answer := ⟨.nothing, 2⟩

def help : Answer := ⟨Output.out.write "Usage: sophia [OPTIONS] <COMMAND>\n", 0⟩

def version : Answer := ⟨Output.out.write "sophia 0.1.0\n", 0⟩

end Answer

/-- What the arguments of a subcommand give, or their answer. -/
structure Given extends Options where
  verbose : Bool
deriving DecidableEq

namespace Given

def none : Given := ⟨⟨false, false, .none, .none⟩, false⟩

/-! Each option may be given once, and so may the file, which has a name. -/

def setVerbose (g : Given) : Except Answer Given :=
  if g.verbose then .error .unusable else .ok { g with verbose := true }

def setPretty (c : Subcommand) (g : Given) : Except Answer Given :=
  if c.takesPretty && !g.pretty then .ok { g with pretty := true } else .error .unusable

def setCompile (c : Subcommand) (g : Given) : Except Answer Given :=
  if c.takesCompile && !g.compile then .ok { g with compile := true } else .error .unusable

def setExecute (g : Given) (text : String) : Except Answer Given :=
  if g.execute.isNone then .ok { g with execute := some text } else .error .unusable

def setFile (c : Subcommand) (g : Given) (path : String) : Except Answer Given :=
  if c.takesProgram && g.file.isNone && path != "" then .ok { g with file := some path }
  else .error .unusable

end Given

/-- What the next argument of a subcommand may be. -/
inductive Stage where
  /-- An option or an operand. -/
  | options
  /-- The text of `--execute`. -/
  | text
  /-- An operand. -/
  | operands
deriving DecidableEq

/-- What is given after an argument of one-letter options, and what may come next. The rest of the
argument after `e`, less an equals sign, is the text. -/
def readLetters (c : Subcommand) (g : Given) : List Char → Except Answer (Given × Stage)
  | [] => .ok (g, .options)
  | 'h' :: _ => .error .help
  | 'v' :: rest => g.setVerbose.bind fun g' => readLetters c g' rest
  | 'p' :: rest => (g.setPretty c).bind fun g' => readLetters c g' rest
  | 'e' :: rest =>
    if c.takesProgram then
      match rest with
      | [] => .ok (g, .text)
      | '=' :: text => (g.setExecute (String.ofList text)).map (·, .options)
      | text => (g.setExecute (String.ofList text)).map (·, .options)
    else .error .unusable
  | _ => .error .unusable

/-- What is given after an option given by its name, and what may come next. -/
def readName (c : Subcommand) (g : Given) (name : String) (text : Option String) :
    Except Answer (Given × Stage) :=
  match name, text with
  | "help", none => .error .help
  | "verbose", none => g.setVerbose.map (·, .options)
  | "pretty", none => (g.setPretty c).map (·, .options)
  | "compile", none => (g.setCompile c).map (·, .options)
  | "execute", none => if c.takesProgram then .ok (g, .text) else .error .unusable
  | "execute", some t =>
    if c.takesProgram then (g.setExecute t).map (·, .options) else .error .unusable
  | _, _ => .error .unusable

/-- The name of an option, and the text after its equals sign if it has one. -/
def splitName (cs : List Char) : String × Option String :=
  match cs.dropWhile (· != '=') with
  | [] => (String.ofList cs, none)
  | _ :: text => (String.ofList (cs.takeWhile (· != '=')), some (String.ofList text))

/-- What is given after one argument, and what may come next. -/
def readArgument (c : Subcommand) (g : Given) (stage : Stage) (arg : String) :
    Except Answer (Given × Stage) :=
  match stage, arg.toList with
  | .operands, _ => (g.setFile c arg).map (·, .operands)
  | .text, '-' :: _ :: _ => .error .unusable
  | .text, _ => (g.setExecute arg).map (·, .options)
  | .options, ['-', '-'] => .ok (g, .operands)
  | .options, '-' :: '-' :: cs => readName c g (splitName cs).1 (splitName cs).2
  | .options, '-' :: letter :: cs => readLetters c g (letter :: cs)
  | .options, _ => (g.setFile c arg).map (·, .options)

def readOptions (c : Subcommand) (g : Given) (stage : Stage) :
    List String → Except Answer Given
  | [] => if stage = .text then .error .unusable else .ok g
  | arg :: rest =>
    (readArgument c g stage arg).bind fun (g', stage') => readOptions c g' stage' rest

namespace Invocation

/-- The verbosity after an argument of one-letter options before the subcommand. -/
def readLetters (verbose : Bool) : List Char → Except Answer Bool
  | [] => .ok verbose
  | 'v' :: rest => if verbose then .error .unusable else readLetters true rest
  | 'h' :: _ => .error .help
  | 'V' :: _ => .error .version
  | _ => .error .unusable

/-- The verbosity after an option before the subcommand. -/
def readOption (verbose : Bool) (arg : String) : Except Answer Bool :=
  match arg.toList with
  | '-' :: '-' :: name =>
    match String.ofList name with
    | "help" => .error .help
    | "version" => .error .version
    | "verbose" => if verbose then .error .unusable else .ok true
    | _ => .error .unusable
  | '-' :: letter :: letters => readLetters verbose (letter :: letters)
  | _ => .error .unusable

/-- The answer to the arguments after `help`: the name of a subcommand may follow. -/
def readHelp : List String → Answer
  | [] => .help
  | name :: _ => if (Subcommand.named.lookup name).isSome || name = "help" then .help else .unusable

/-- What the arguments of the command ask for, after the options that were read. -/
def readFrom (verbose : Bool) : List String → Invocation
  | [] => settled .unusable
  | arg :: rest =>
    match Subcommand.named.lookup arg with
    | some c =>
      match readOptions c .none .options rest with
      | .ok g => subcommand (verbose || g.verbose) c g.toOptions
      | .error a => settled a
    | none =>
      if arg = "help" then settled (readHelp rest)
      else
        match readOption verbose arg with
        | .ok verbose' => readFrom verbose' rest
        | .error a => settled a

def read (args : List String) : Invocation := readFrom false args

end Invocation

end Splice.Command
