import Splice.Program

/-!
# Sessions

A session prompts for lines and answers each one as a program of its own. A failed line is answered
by what is said about the failure, and the session goes on. It ends at the end of the input, at the
line `.exit`, or at a line that is no text.
-/

namespace Splice.Session

open Text

def prompt : String := "sophia> "

/-- The failure of a line that is not well-formed. -/
def notText : Failure := .io "stream did not contain valid UTF-8"

inductive Reply where
  /-- It goes on, after writing a text. -/
  | written (events : List Event) (text : String)
  /-- It is over. -/
  | left
  /-- It breaks off. -/
  | broken

def answer (r : Run Product) : String :=
  match r.outcome with
  | .ok product => product.text .compact ++ "\n"
  | .error e => e.message ++ "\n"

/-- The reply to a line, which does not hold its line end. -/
def reply (goal : Goal) (line : List UInt8) : Reply :=
  if isWellFormed line then
    let text := trim (characters line)
    if text = ".exit".toList then .left
    else if text = [] then .written [] ""
    else .written (run goal line).events (answer (run goal line))
  else .broken

/-- A line without the carriage return that is part of its end. -/
def withoutReturn (line : List UInt8) : List UInt8 :=
  if line.getLast? = some 13 then line.dropLast else line

/-- The lines of an input: what stands before its line feeds, and what stands after the last one
unless that is nothing. -/
def inputLines (octets : List UInt8) : List (List UInt8) :=
  let pieces := octets.splitOn 10
  let last := pieces.getLast?.getD []
  pieces.dropLast.map withoutReturn ++ if last = [] then [] else [last]

/-- What a session writes, what happens in it, and the failure that breaks it off. -/
structure Transcript where
  output : String
  events : List Event
  failure : Option Failure

/-- The transcript of the lines to come, the prompt for the first one having been written. -/
def resume (goal : Goal) : List (List UInt8) → Transcript
  | [] => ⟨"\n", [], none⟩
  | line :: rest =>
    match reply goal line with
    | .left => ⟨"\n", [], none⟩
    | .broken => ⟨"", [], some notText⟩
    | .written events text =>
      let after := resume goal rest
      ⟨text ++ prompt ++ after.output, events ++ after.events, after.failure⟩

def transcript (goal : Goal) (input : List UInt8) : Transcript :=
  let t := resume goal (inputLines input)
  { t with output := prompt ++ t.output }

end Splice.Session
