import Splice.Command
import Splice.Proofs.OneLine

/-!
# Answers of the command

Where the source of a program is from (`Supplies`), and what the command answers to it (`IsAnswer`):
what a run of the source gives, or why there is nothing to give. A log that keeps to the error
output changes only what is told before that, and without a log these are the excerpts of the
diagnostics (`err_log_of_write`). What a session answers is its transcript.
-/

namespace Splice

/-! ## Logs -/

namespace Logger

variable {Filter : Type} {l : Logger Filter} {filter : Filter}

theorem Lawful.out_tell (hl : l.Lawful) (filter : Filter) (event : Event) :
    (l.tell filter event).out = "" := by
  obtain ⟨text, htext⟩ := hl.stream .err filter event.record
  rw [tell, htext]
  cases event.diagnostic? <;> rfl

/-- Nothing of a log is on the output. -/
theorem Lawful.out_log (hl : l.Lawful) (filter : Filter) (events : List Event) :
    (l.log filter events).out = "" := by
  induction events with
  | nil => rfl
  | cons event events ih =>
    rw [log, Written.out_append, hl.out_tell, ih]
    rfl

theorem err_log_append (l : Logger Filter) (filter : Filter) (before after : List Event) :
    (l.log filter (before ++ after)).err =
      (l.log filter before).err ++ (l.log filter after).err := by
  induction before with
  | nil => exact String.empty_append.symm
  | cons event before ih =>
    rw [List.cons_append, log, log, Written.err_append, Written.err_append, ih,
      String.append_assoc]

/-- Under a filter that no record passes there are only the excerpts. -/
theorem err_log_of_write (h : ∀ record, l.write .err filter record = .nothing)
    (events : List Event) : (l.log filter events).err =
      String.join ((diagnostics events).map (String.ofList ·.excerpt)) := by
  unfold diagnostics
  induction events with
  | nil => rfl
  | cons event events ih =>
    rw [log, Written.err_append, ih, tell, h, Written.err_append, Written.err_nothing,
      String.empty_append, List.filterMap_cons]
    cases event.diagnostic? with
    | none => exact String.empty_append
    | some d => exact String.join_cons.symm

/-- The word `off` asks for such a filter. -/
theorem Lawful.write_filterFor (hl : l.Lawful) (verbose : Bool) (record : Record) :
    l.write .err (l.filterFor (some "off") verbose) record = .nothing := by
  obtain ⟨filter, hfilter, hoff⟩ := hl.off
  have hfor : l.filterFor (some "off") verbose = filter := by simp [filterFor, hfilter]
  rw [hfor]
  exact hoff .err record

end Logger

namespace Command

open Text

/-! ## Sources -/

/-- What reading the source of a program gives: the text of `--execute` comes first, then the file,
then the standard input. -/
inductive Supplies (w : Surroundings) (o : Options) : Except Failure (List UInt8) → Prop where
  | execute {program} : o.execute = some program → Supplies w o (.ok (encode program.toList))
  | file {path octets} : o.execute = none → o.file = some path → w.file path = .ok octets →
      Supplies w o (.ok octets)
  | noFile {path reason} : o.execute = none → o.file = some path → w.file path = .error reason →
      Supplies w o (.error (.io reason))
  | stdin {octets} : o.execute = none → o.file = none → w.stdin = some (.octets octets) →
      Supplies w o (.ok octets)
  | noStdin {reason} : o.execute = none → o.file = none → w.stdin = some (.failed reason) →
      Supplies w o (.error (.io reason))
  | terminal : o.execute = none → o.file = none → w.stdin = none →
      Supplies w o (.error .noInput)

variable {w : Surroundings} {args : List String} {verbose : Bool} {c : Subcommand} {o : Options}

theorem supplies_iff {source : Except Failure (List UInt8)} :
    Supplies w o source ↔ source = readInput w o.input := by
  constructor
  · intro h
    cases h with
    | execute h => simp [Options.input, h, readInput]
    | file hexecute hpath h | noFile hexecute hpath h =>
      simp [Options.input, hexecute, hpath, readInput, h, Except.mapError]
    | stdin hexecute hpath h | noStdin hexecute hpath h | terminal hexecute hpath h =>
      simp [Options.input, hexecute, hpath, readInput, h]
  · rintro rfl
    cases hexecute : o.execute with
    | some program =>
      simp only [Options.input, hexecute, readInput]
      exact .execute hexecute
    | none =>
      cases hpath : o.file with
      | some path =>
        simp only [Options.input, hexecute, hpath, readInput]
        cases h : w.file path with
        | ok octets => exact .file hexecute hpath h
        | error reason => exact .noFile hexecute hpath h
      | none =>
        simp only [Options.input, hexecute, hpath, readInput]
        cases h : w.stdin with
        | none => exact .terminal hexecute hpath h
        | some reading =>
          cases reading with
          | octets octets => exact .stdin hexecute hpath h
          | failed reason => exact .noStdin hexecute hpath h

/-! ## Answers -/

/-- What a subcommand shows of what a run gives; only values and tokens have two layouts. -/
inductive Shows (pretty : Bool) : Subcommand → Product → String → Prop where
  | value {v} : Shows pretty .run (.value v)
      (v.toJson.render (if pretty then .indented else .compact) .printable)
  | script {s} : Shows pretty .compile (.script s) s
  | tokens {ts} : Shows pretty .lex (.tokens ts)
      (tokenList (if pretty then .indented else .compact) ts)

/-- Why there is nothing to give: the source cannot be read, or its run fails. -/
def IsFailure (goal : Goal) (source : Except Failure (List UInt8)) (e : Failure) : Prop :=
  source = .error e ∨ ∃ octets, source = .ok octets ∧ (run goal octets).outcome = .error e

@[simp] theorem isFailure_error {goal : Goal} {e e' : Failure} :
    IsFailure goal (.error e) e' ↔ e = e' := by
  simp [IsFailure]

@[simp] theorem isFailure_ok {goal : Goal} {octets : List UInt8} {e : Failure} :
    IsFailure goal (.ok octets) e ↔ (run goal octets).outcome = .error e := by
  simp [IsFailure]

/-- The excerpts of the diagnostics in the run of a source, one after another. -/
def excerpts (goal : Goal) : Except Failure (List UInt8) → String
  | .ok octets => String.join ((run goal octets).diagnostics.map (String.ofList ·.excerpt))
  | .error _ => ""

/-- What is answered to a program from a source, when a variable asks for the log. -/
structure IsAnswer (level : Option String) (c : Subcommand) (o : Options)
    (source : Except Failure (List UInt8)) (a : Answer) : Prop where
  exit_iff : a.exit = 0 ↔
    ∃ octets, source = .ok octets ∧ (run (goalOf c o) octets).diagnostics = []
  shown : a.exit = 0 → ∃ octets product text, source = .ok octets ∧
    (run (goalOf c o) octets).outcome = .ok product ∧ Shows o.pretty c product text ∧
    a.out = text ++ "\n"
  failed : a.exit ≠ 0 → a.exit = 1 ∧ a.out = "" ∧
    ∃ e told, IsFailure (goalOf c o) source e ∧ a.err = told ++ (e.message ++ "\n")
  silent : level = some "off" →
    (a.exit = 0 → a.err = excerpts (goalOf c o) source) ∧
    ∀ e, IsFailure (goalOf c o) source e →
      a.err = excerpts (goalOf c o) source ++ (e.message ++ "\n")

def answerSource (l : Json.Layout) (log : List Event → Written) (goal : Goal) :
    Except Failure (List UInt8) → Answer
  | .ok octets => answerProgram l log (run goal octets)
  | .error e => .failed e

section

variable {Filter : Type} {p : Packages Filter} {l : Logger Filter}

theorem answer_of_read (hargs : p.read args = .subcommand verbose c o) (hc : c ≠ .repl) :
    p.answer w args =
      answerSource (layoutOf o) (p.logger.log (p.logger.filterFor w.level verbose)) (goalOf c o)
        (readInput w o.input) := by
  rw [Packages.answer, hargs]
  dsimp only
  cases c with
  | repl => exact absurd rfl hc
  | run | compile | lex =>
    unfold answerSubcommand answerSource
    cases readInput w o.input <;> rfl

theorem shows_text {octets : List UInt8} {product : Product} (hc : c ≠ .repl)
    (h : (run (goalOf c o) octets).outcome = .ok product) :
    Shows o.pretty c product (product.text (layoutOf o)) := by
  have hproduct := product_cases h
  cases c with
  | repl => exact absurd rfl hc
  | run =>
    obtain ⟨-, v, rfl⟩ | ⟨hgoal, -⟩ | ⟨hgoal, -⟩ := hproduct
    · exact .value
    · cases hgoal
    · cases hgoal
  | compile =>
    obtain ⟨hgoal, -⟩ | ⟨-, root, rfl⟩ | ⟨hgoal, -⟩ := hproduct
    · cases hgoal
    · exact .script
    · cases hgoal
  | lex =>
    obtain ⟨hgoal, -⟩ | ⟨hgoal, -⟩ | ⟨-, ts, rfl⟩ := hproduct
    · cases hgoal
    · cases hgoal
    · exact .tokens

theorem isAnswer_error (level : Option String) (c : Subcommand) (o : Options) (e : Failure) :
    IsAnswer level c o (.error e) (.failed e) where
  exit_iff := by simp
  shown h := absurd h Nat.one_ne_zero
  failed _ := ⟨rfl, rfl, e, "", isFailure_error.mpr rfl, String.empty_append.symm⟩
  silent _ := by
    refine ⟨fun h => absurd h Nat.one_ne_zero, fun e' he' => ?_⟩
    rw [← isFailure_error.mp he']
    exact String.empty_append.symm

theorem exists_product_iff {goal : Goal} {octets : List UInt8} :
    (∃ product, (run goal octets).outcome = .ok product) ↔ (run goal octets).diagnostics = [] :=
  (outcome_runSource_iff goal (.ofOctets octets)).1

section

variable {level : Option String} {octets : List UInt8} {written : Written}

/-- What is written on the way is not on the output, and without a log it is the excerpts. -/
theorem isAnswer_product {product : Product} (hc : c ≠ .repl)
    (houtcome : (run (goalOf c o) octets).outcome = .ok product) (hout : written.out = "")
    (herr : level = some "off" → written.err = excerpts (goalOf c o) (.ok octets)) :
    IsAnswer level c o (.ok octets) (.after written (.ok (product.text (layoutOf o) ++ "\n"))) where
  exit_iff := iff_of_true rfl ⟨octets, rfl, exists_product_iff.mp ⟨product, houtcome⟩⟩
  shown _ := by
    refine ⟨octets, product, _, rfl, houtcome, shows_text hc houtcome, ?_⟩
    simp [hout]
  failed hexit := absurd rfl hexit
  silent hlevel := by
    refine ⟨fun _ => ?_, fun e he => ?_⟩
    · simp [herr hlevel]
    · cases houtcome.symm.trans (isFailure_ok.mp he)

theorem isAnswer_failed {e : Failure} (houtcome : (run (goalOf c o) octets).outcome = .error e)
    (hout : written.out = "")
    (herr : level = some "off" → written.err = excerpts (goalOf c o) (.ok octets)) :
    IsAnswer level c o (.ok octets) (.after written (.failed e)) where
  exit_iff := by
    have hsome : (run (goalOf c o) octets).diagnostics ≠ [] := by
      intro hnone
      obtain ⟨product, hproduct⟩ := exists_product_iff.mpr hnone
      cases houtcome.symm.trans hproduct
    simpa using hsome
  shown hexit := absurd hexit Nat.one_ne_zero
  failed _ := by
    refine ⟨rfl, ?_, e, _, isFailure_ok.mpr houtcome, rfl⟩
    simp [hout]
  silent hlevel := by
    refine ⟨fun hexit => absurd hexit Nat.one_ne_zero, fun e' he' => ?_⟩
    obtain rfl : e = e' := Except.error.inj (houtcome.symm.trans (isFailure_ok.mp he'))
    simp [herr hlevel]

end

/-- The answer to the source of a program is what its run gives, or why there is nothing to give. -/
theorem isAnswer_answerSource (hl : l.Lawful) (hc : c ≠ .repl) (level : Option String)
    (verbose : Bool) (source : Except Failure (List UInt8)) :
    IsAnswer level c o source
      (answerSource (layoutOf o) (l.log (l.filterFor level verbose)) (goalOf c o) source) := by
  cases source with
  | error e => exact isAnswer_error level c o e
  | ok octets =>
    have hout := hl.out_log (l.filterFor level verbose) (run (goalOf c o) octets).events
    have herr (hlevel : level = some "off") :
        (l.log (l.filterFor level verbose) (run (goalOf c o) octets).events).err =
          excerpts (goalOf c o) (.ok octets) := by
      subst hlevel
      exact Logger.err_log_of_write (hl.write_filterFor verbose) _
    rw [answerSource, answerProgram]
    cases houtcome : (run (goalOf c o) octets).outcome with
    | ok product => exact isAnswer_product hc houtcome hout herr
    | error e => exact isAnswer_failed houtcome hout herr

/-! ## Levels -/

/-- Two logs that keep off the output change neither the exit code nor the output. -/
theorem answerSource_log (layout : Json.Layout) {log log' : List Event → Written}
    (h : ∀ events, (log events).out = (log' events).out) (goal : Goal)
    (source : Except Failure (List UInt8)) :
    (answerSource layout log goal source).exit = (answerSource layout log' goal source).exit ∧
      (answerSource layout log goal source).out = (answerSource layout log' goal source).out := by
  cases source with
  | error e => exact ⟨rfl, rfl⟩
  | ok octets => exact ⟨rfl, congrArg (· ++ _) (h _)⟩

theorem goalOf_eq (hc : c ≠ .repl) (o o' : Options) : goalOf c o = goalOf c o' := by
  cases c with
  | repl => exact absurd rfl hc
  | run | compile | lex => rfl

theorem readInput_eq {o' : Options} (hexecute : o'.execute = o.execute) (hfile : o'.file = o.file)
    (w : Surroundings) (level : Option String) :
    readInput { w with level } o'.input = readInput w o.input := by
  rw [Options.input, hexecute, hfile, ← Options.input]
  cases o.input <;> rfl

/-- **Answers.** Let any package read the arguments, and another write the log to its own output
only. A subcommand that runs a program reads one source. The exit code is 0 if and only if the
source can be read and its run reports nothing, and then the output is the text of what the run
gives and a line feed; else the exit code is 1, the output is empty, and the error output ends with
a line that says why. Neither exit code nor output depend on the level of the log, and without a log
the error output is the excerpts of the diagnostics and that line. -/
theorem isAnswer_answer (hp : p.logger.Lawful) (w : Surroundings)
    (hargs : p.read args = .subcommand verbose c o) (hc : c ≠ .repl) :
    ∃ source, (∀ source', Supplies w o source' ↔ source' = source) ∧
      IsAnswer w.level c o source (p.answer w args) ∧
      ∀ args' verbose' o' level, p.read args' = .subcommand verbose' c o' →
        o'.execute = o.execute → o'.file = o.file → o'.pretty = o.pretty →
        (p.answer { w with level } args').exit = (p.answer w args).exit ∧
          (p.answer { w with level } args').out = (p.answer w args).out := by
  refine ⟨readInput w o.input, fun source' => supplies_iff, ?_, ?_⟩
  · rw [answer_of_read hargs hc]
    exact isAnswer_answerSource hp hc _ _ _
  · intro args' verbose' o' level hargs' hexecute hfile hpretty
    have hlayout : layoutOf o' = layoutOf o := by rw [layoutOf, hpretty, ← layoutOf]
    rw [answer_of_read hargs' hc, answer_of_read hargs hc, hlayout, goalOf_eq hc o' o,
      readInput_eq hexecute hfile]
    exact answerSource_log _ (fun events => by rw [hp.out_log, hp.out_log]) _ _

/-- Surroundings without an input, a file or a log. -/
def quiet : Surroundings where
  stdin := none
  file _ := .error "No such file or directory (os error 2)"
  level := some "off"

/-- The text of `--execute` is read, and not the file; it is an open string. -/
def openArgs : List String := ["run", "missing", "-e", "\"ab"]

/-- The excerpt of the open string is told, and the failure; with a log, nothing else changes. -/
theorem answer_openArgs :
    plain.logger.Lawful ∧
      plain.read openArgs =
        .subcommand false .run ⟨false, false, some "\"ab", some "missing"⟩ ∧
      (answer quiet openArgs).err = "\n001 |\t\"ab\n\t ^^\n\n" ++ "lexer error\n" ∧
      ∀ level, (answer { quiet with level } ("-v" :: openArgs)).exit = 1 ∧
        (answer { quiet with level } ("-v" :: openArgs)).out = "" := by
  have hargs : plain.read openArgs =
      .subcommand false .run ⟨false, false, some "\"ab", some "missing"⟩ := rfl
  have hverbose : plain.read ("-v" :: openArgs) =
      .subcommand true .run ⟨false, false, some "\"ab", some "missing"⟩ := rfl
  obtain ⟨source, hsource, hanswer, hlevel⟩ :=
    isAnswer_answer (p := plain) Plain.lawful_logger quiet hargs (by decide)
  obtain rfl := (hsource _).mp (.execute rfl)
  have hfailure : IsFailure (goalOf .run ⟨false, false, some "\"ab", some "missing"⟩)
      (.ok (encode "\"ab".toList)) .scan := isFailure_ok.mpr rfl
  refine ⟨Plain.lawful_logger, hargs, (hanswer.silent rfl).2 .scan hfailure, fun level => ?_⟩
  obtain ⟨hexit, hout⟩ := hlevel _ _ _ level hverbose rfl rfl rfl
  exact ⟨hexit.trans rfl, hout.trans rfl⟩

end

/-! ## Sessions -/

section

variable {Filter : Type} {l : Logger Filter} {filter : Filter} {goal : Goal}

/-- An answer tells a transcript: what is written, the log of what happens, and the failure. -/
structure Tells (log : List Event → Written) (t : Session.Transcript) (a : Answer) : Prop where
  out : a.out = t.output
  err : a.err = (log t.events).err ++ t.failure.elim "" (·.message ++ "\n")
  exit : a.exit = t.failure.elim 0 fun _ => 1

theorem tells_resume (hl : l.Lawful) (lines : List (List UInt8)) :
    Tells (l.log filter) (Session.resume goal lines) (answerLines goal (l.log filter) lines) := by
  induction lines with
  | nil => exact ⟨rfl, rfl, rfl⟩
  | cons line rest ih =>
    rw [Session.resume, answerLines]
    cases Session.reply goal line with
    | left => exact ⟨rfl, rfl, rfl⟩
    | broken => exact ⟨rfl, rfl, rfl⟩
    | written events text =>
      constructor
      · simp [Output.write, hl.out_log, ih.out]
      · simp [Output.write, Logger.err_log_append, ih.err, String.append_assoc]
      · exact ih.exit

/-- A session answers with its transcript, and with the log of what happens in it. -/
theorem tells_transcript (hl : l.Lawful) (input : List UInt8) :
    Tells (l.log filter) (Session.transcript goal input)
      (answerSession goal (l.log filter) (some (.octets input))) where
  out := congrArg (Session.prompt ++ ·) (tells_resume hl _).out
  err := String.empty_append.trans (tells_resume hl _).err
  exit := (tells_resume hl _).exit

end

end Command

end Splice
