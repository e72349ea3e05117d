import Splice.Command

/-!
# The program

Reads what the command needs and writes what it answers. A session at a terminal is answered line
by line; everything else is read as a whole.
-/

namespace Splice.Main

/-- Why a file cannot be read. -/
def reason : IO.Error → String
  | .noFileOrDirectory .. => "No such file or directory (os error 2)"
  | .permissionDenied .. => "Permission denied (os error 13)"
  | .inappropriateType _ 21 _ => "Is a directory (os error 21)"
  | .inappropriateType .. => "Not a directory (os error 20)"
  | e => toString e

/-- The octets that are left in a stream. -/
partial def readAll (stream : IO.FS.Stream) (before : ByteArray) : IO ByteArray := do
  let more ← stream.read 65536
  if more.isEmpty then return before
  readAll stream (before ++ more)

/-- The octets up to a line feed and whether there was one. -/
partial def readLine (stream : IO.FS.Stream) (before : List UInt8) : IO (List UInt8 × Bool) := do
  match (← stream.read 1).toList with
  | [] => return (before.reverse, false)
  | b :: _ => if b = 10 then return (before.reverse, true) else readLine stream (b :: before)

def write (stream : IO.FS.Stream) (text : String) : IO Unit := do
  stream.putStr text
  stream.flush

def writeBoth (w : Written) : IO Unit := do
  write (← IO.getStderr) w.err
  write (← IO.getStdout) w.out

def tell (a : Command.Answer) : IO UInt32 := do
  writeBoth a.toWritten
  return UInt32.ofNat a.exit

/-- Answers the lines of a terminal. -/
partial def converse (goal : Goal) (log : List Event → Written) : IO UInt32 := do
  write (← IO.getStdout) Session.prompt
  let (line, ended) ← readLine (← IO.getStdin) []
  if line.isEmpty && !ended then return ← tell (.ok "\n")
  match Session.reply goal (if ended then Session.withoutReturn line else line) with
  | .written events text =>
    writeBoth (log events)
    write (← IO.getStdout) text
    converse goal log
  | .left => tell (.ok "\n")
  | .broken => tell (.failed Session.notText)

/-- The octets of the file a subcommand reads, or why it cannot be read; nothing is read if it
reads no file. -/
def contents (o : Command.Options) : IO (Except String (List UInt8)) := do
  match o.input with
  | .file path =>
    match ← (IO.FS.readBinFile path).toBaseIO with
    | .ok octets => return .ok octets.toList
    | .error e => return .error (reason e)
  | _ => return .ok []

/-- What reading the standard input gives, unless it is a terminal. -/
def standardInput : IO (Option Command.Reading) := do
  let stdin ← IO.getStdin
  if ← stdin.isTty then return none
  match ← (readAll stdin .empty).toBaseIO with
  | .ok octets => return some octets.toList
  | .error e => return some (.failed (reason e))

def perform (args : List String) : IO UInt32 := do
  let level ← IO.getEnv "SOPHIA_LOG"
  let nothing : Command.Surroundings := ⟨some (.octets []), fun _ => .ok [], level⟩
  match Command.plain.read args with
  | .subcommand verbose c o =>
    if c == .repl then
      if ← (← IO.getStdin).isTty then
        let logger := Command.plain.logger
        return ← converse (Command.goalOf c o) (logger.log (logger.filterFor level verbose))
    let octets ← contents o
    let stdin ← if o.input = .stdin then standardInput else pure (some (.octets []))
    tell (Command.answer ⟨stdin, fun _ => octets, level⟩ args)
  | _ => tell (Command.answer nothing args)

end Splice.Main

def main (args : List String) : IO UInt32 := Splice.Main.perform args
