import Splice.Json
import Splice.Log

/-!
# Plain logs

A logger whose records are lines without colours. Its filters are lists of directives, each for the
targets with some beginning; the one with the longest beginning decides, and the last of those.
-/

namespace Splice.Plain

/-! ## Filters -/

inductive Level where
  | off
  | error
  | warn
  | info
  | debug
  | trace
deriving DecidableEq

namespace Level

def named : List (String × Level) :=
  [("off", off), ("error", error), ("warn", warn), ("info", info), ("debug", debug),
    ("trace", trace), ("0", off), ("1", error), ("2", warn), ("3", info), ("4", debug),
    ("5", trace), ("", error)]

/-- The level with a name, in any case. -/
def ofName? (name : List Char) : Option Level :=
  named.lookup (String.ofList (name.map Char.toLower))

def shows : Level → Severity → Bool
  | off, _ => false
  | error, s | warn, s | info, s => s == .error
  | debug, _ | trace, _ => true

end Level

structure Directive where
  target : List Char
  level : Level
deriving DecidableEq

/-- Whether a text is the beginning of targets. -/
def isTarget (text : List Char) : Bool :=
  text.all fun c => c.isAlphanum || c == '_' || c == ':' || c == '-'

/-- A directive: a level for all targets, a target with a level, or one that is shown whole. -/
def directive? (text : List Char) : Option Directive :=
  match text.splitOn '=' with
  | [name] =>
    match Level.ofName? name with
    | some level => some ⟨[], level⟩
    | none => if isTarget name then some ⟨name, .trace⟩ else none
  | [target, name] =>
    if isTarget target then (Level.ofName? name).map (⟨target, ·⟩) else none
  | _ => none

/-- The directives of a text, between commas. An empty text asks for errors. -/
def filter? (text : String) : Option (List Directive) :=
  let pieces := (text.toList.splitOn ',').filter (· != [])
  if pieces = [] then some [⟨[], .error⟩] else pieces.mapM directive?

/-- The directive that decides about a target: the next one, if it is for the target and no
narrower one was before it. -/
def narrower (target : List Char) (best : Option Directive) (d : Directive) : Option Directive :=
  if d.target.isPrefixOf target && best.all (·.target.length ≤ d.target.length) then some d
  else best

def shows (filter : List Directive) (record : Record) : Bool :=
  (filter.foldl (narrower record.target.toList) none).any (·.level.shows record.severity)

/-! ## Lines -/

/-- A character of a message: controls that a terminal would act on are written by their code. -/
def shown (c : Char) : List Char :=
  if c = '\x07' ∨ c = '\x08' ∨ c = '\x0c' ∨ c = '\x1b' ∨ c = '\x7f' then
    '\\' :: 'x' :: Json.hexDigits 2 c.toNat
  else if 0x80 ≤ c.toNat ∧ c.toNat ≤ 0x9F then
    "\\u\x7b".toList ++ Json.hexDigits 2 c.toNat ++ ['\x7d']
  else [c]

def severityName : Severity → String
  | .error => "ERROR"
  | .debug => "DEBUG"

def fieldText : String × Field → String
  | (name, .natural n) => " " ++ name ++ "=" ++ toString n
  | (name, .flag b) => " " ++ name ++ "=" ++ toString b

/-- The line of a record: the severity, the message, and the fields with their values. -/
def line (record : Record) : String :=
  severityName record.severity ++ " " ++ String.ofList (record.message.toList.flatMap shown) ++
    String.join (record.fields.map fieldText) ++ "\n"

/-! ## The logger -/

def logger : Logger (List Directive) where
  filter? := filter?
  filter text := (filter? text).getD []
  write output filter record :=
    if shows filter record then output.write (line record) else .nothing

theorem shows_off (record : Record) : shows [⟨[], .off⟩] record = false := by
  cases record
  rfl

theorem lawful_logger : logger.Lawful where
  stream output filter record := by
    simp only [logger]
    split
    · exact ⟨_, rfl⟩
    · exact ⟨"", output.write_empty.symm⟩
  off := by
    refine ⟨[⟨[], .off⟩], by decide, fun output record => ?_⟩
    simp [logger, shows_off]

end Splice.Plain
