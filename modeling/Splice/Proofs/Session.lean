import Splice.Session
import Splice.Proofs.Lines
import Splice.Proofs.OneLine

/-!
# Sessions

A session cuts its input into lines (`cut_iff`). It answers the lines before `.exit` one by one,
each as a program of its own, up to a line that is no text (`resume_append`). An answer is one line,
so the line feeds of the output count the answers.
-/

namespace Splice.Session

open Text

/-! ## Lines -/

/-- Octets are cut into lines at their line feeds. A carriage return before a line feed is part of
the line end, and what is after the last line feed is a line unless it is nothing. -/
inductive Cut : List UInt8 → List (List UInt8) → Prop where
  | done : Cut [] []
  | last {line} : line ≠ [] → 10 ∉ line → Cut line [line]
  | line {line rest lines} : 10 ∉ line → line.getLast? ≠ some 13 → Cut rest lines →
      Cut (line ++ 10 :: rest) (line :: lines)
  | returned {line rest lines} : 10 ∉ line → Cut rest lines →
      Cut (line ++ 13 :: 10 :: rest) (line :: lines)

variable {line rest input : List UInt8} {lines : List (List UInt8)} {goal : Goal}

theorem inputLines_of_not_mem (h : 10 ∉ line) :
    inputLines line = if line = [] then [] else [line] := by
  unfold inputLines
  rw [List.splitOn_eq_singleton h]
  rfl

theorem inputLines_append (h : 10 ∉ line) (rest : List UInt8) :
    inputLines (line ++ 10 :: rest) = withoutReturn line :: inputLines rest := by
  unfold inputLines
  obtain ⟨piece, pieces, hpieces⟩ : ∃ piece pieces, rest.splitOn 10 = piece :: pieces :=
    List.exists_cons_of_ne_nil (List.splitOn_ne_nil _ _)
  rw [List.splitOn_append_cons_self_of_not_mem h, hpieces]
  rfl

theorem withoutReturn_of_ne (h : line.getLast? ≠ some 13) : withoutReturn line = line := if_neg h

theorem withoutReturn_append (line : List UInt8) : withoutReturn (line ++ [13]) = line := by
  rw [withoutReturn, List.getLast?_concat, if_pos rfl, List.dropLast_concat]

theorem Cut.eq_inputLines (h : Cut input lines) : lines = inputLines input := by
  induction h with
  | done => rfl
  | last hne hline => rw [inputLines_of_not_mem hline, if_neg hne]
  | line hline hlast _ ih => rw [inputLines_append hline, withoutReturn_of_ne hlast, ih]
  | @returned line rest lines hline _ ih =>
    have hreturned : 10 ∉ line ++ [13] := by simp [hline]
    rw [List.append_cons, inputLines_append hreturned, withoutReturn_append, ih]

theorem cut_inputLines (input : List UInt8) : Cut input (inputLines input) := by
  induction input using lineInduction with
  | last line hline =>
    rw [inputLines_of_not_mem hline]
    split
    case isTrue h =>
      rw [h]
      exact .done
    case isFalse h => exact .last h hline
  | newline line rest hline ih =>
    rw [inputLines_append hline]
    by_cases hlast : line.getLast? = some 13
    · obtain ⟨line, rfl⟩ := List.getLast?_eq_some_iff.mp hlast
      have hline : 10 ∉ line := fun h => hline (List.mem_append_left _ h)
      rw [withoutReturn_append, ← List.append_cons]
      exact .returned hline ih
    · rw [withoutReturn_of_ne hlast]
      exact .line hline hlast ih

theorem cut_iff : Cut input lines ↔ lines = inputLines input := by
  constructor
  · exact Cut.eq_inputLines
  · rintro rfl
    exact cut_inputLines input

def isExit (line : List UInt8) : Bool :=
  isWellFormed line && trim (characters line) == ".exit".toList

def isBlank (line : List UInt8) : Bool := trim (characters line) == []

/-- The lines of an input before the one that ends the session. -/
def said (input : List UInt8) : List (List UInt8) := (inputLines input).takeWhile (!isExit ·)

/-! ## Answers -/

/-- What a session writes for a line: the answer, unless there is nothing to answer, and a
prompt. -/
def exchange (goal : Goal) (line : List UInt8) : String :=
  (if isBlank line then "" else (run goal line).response ++ "\n") ++ prompt

/-- What happens in the answer to a line. -/
def lineEvents (goal : Goal) (line : List UInt8) : List Event :=
  if isBlank line then [] else (run goal line).events

/-- What is reported of a line: what its run reports, if there is something to answer. -/
def reports (goal : Goal) (line : List UInt8) : List Diagnostic :=
  if isBlank line then [] else (run goal line).diagnostics

theorem answer_eq (r : Run Product) : answer r = r.response ++ "\n" := by
  unfold answer Run.response
  cases r.outcome <;> rfl

theorem reply_of_isExit (h : isExit line = true) : reply goal line = .left := by
  obtain ⟨hwell, htext⟩ := Bool.and_eq_true_iff.mp h
  rw [reply, if_pos hwell]
  exact if_pos (beq_iff_eq.mp htext)

theorem reply_of_isWellFormed (hwell : isWellFormed line = true) (hexit : isExit line = false) :
    reply goal line = .written (lineEvents goal line)
      (if isBlank line then "" else (run goal line).response ++ "\n") := by
  have htext : trim (characters line) ≠ ".exit".toList := by
    simpa [isExit, hwell] using hexit
  rw [reply, if_pos hwell]
  simp only [if_neg htext]
  unfold lineEvents isBlank
  by_cases h : trim (characters line) = []
  · simp [h]
  · simp [h, answer_eq]

theorem reply_of_not_isWellFormed (h : isWellFormed line = false) : reply goal line = .broken :=
  if_neg (Bool.not_eq_true _ ▸ h)

/-- Lines that are answered do not change how the lines after them are answered. -/
theorem resume_append (goal : Goal) {before : List (List UInt8)}
    (h : ∀ line ∈ before, isWellFormed line = true ∧ isExit line = false)
    (after : List (List UInt8)) : resume goal (before ++ after) =
      ⟨String.join (before.map (exchange goal)) ++ (resume goal after).output,
        before.flatMap (lineEvents goal) ++ (resume goal after).events,
        (resume goal after).failure⟩ := by
  induction before with
  | nil => simp
  | cons line before ih =>
    obtain ⟨⟨hwell, hexit⟩, hbefore⟩ := List.forall_mem_cons.mp h
    rw [List.cons_append, resume, reply_of_isWellFormed hwell hexit]
    simp [ih hbefore, exchange, String.append_assoc]

theorem diagnostics_flatMap (goal : Goal) (lines : List (List UInt8)) :
    diagnostics (lines.flatMap (lineEvents goal)) = lines.flatMap (reports goal) := by
  have hline : ∀ line ∈ lines, diagnostics (lineEvents goal line) = reports goal line := by
    intro line _
    unfold lineEvents reports
    split <;> rfl
  unfold diagnostics
  rw [List.filterMap_flatMap]
  exact List.flatMap_congr hline

theorem count_newline_exchange (goal : Goal) (line : List UInt8) :
    (exchange goal line).toList.count '\n' = if isBlank line then 0 else 1 := by
  have hprompt : prompt.toList.count '\n' = 0 := by decide
  have hresponse : (run goal line).response.toList.count '\n' = 0 :=
    List.count_eq_zero_of_not_mem (newline_not_mem_response goal line)
  unfold exchange
  rw [String.toList_append, List.count_append, hprompt, Nat.add_zero]
  split
  case isTrue => rfl
  case isFalse =>
    rw [String.toList_append, List.count_append, hresponse]
    rfl

theorem count_newline_exchanges (goal : Goal) (lines : List (List UInt8)) :
    (String.join (lines.map (exchange goal))).toList.count '\n' =
      lines.countP (!isBlank ·) := by
  induction lines with
  | nil => rfl
  | cons line lines ih =>
    rw [List.map_cons, String.join_cons, String.toList_append, List.count_append, ih,
      count_newline_exchange, List.countP_cons, Nat.add_comm]
    cases isBlank line <;> rfl

/-! ## Transcripts -/

theorem isExit_of_mem_said (h : line ∈ said input) : isExit line = false := by
  have hnot := List.mem_takeWhile_imp h
  simpa using hnot

/-- After the lines that are said, the input is at its end or the session at its own. -/
theorem resume_after_said (goal : Goal) (input : List UInt8) :
    resume goal ((inputLines input).dropWhile (!isExit ·)) = ⟨"\n", [], none⟩ := by
  cases h : (inputLines input).dropWhile (!isExit ·) with
  | nil => rfl
  | cons line rest =>
    have hexit : isExit line = true := by
      have hhead := List.head?_dropWhile_not (!isExit ·) (inputLines input)
      rw [h] at hhead
      simpa using hhead
    rw [resume, reply_of_isExit hexit]

/-- A session of text answers all that is said. -/
theorem transcript_of_isWellFormed (h : ∀ line ∈ said input, isWellFormed line = true) :
    transcript goal input =
      ⟨prompt ++ String.join ((said input).map (exchange goal)) ++ "\n",
        (said input).flatMap (lineEvents goal), none⟩ := by
  have hsaid : ∀ line ∈ said input, isWellFormed line = true ∧ isExit line = false :=
    fun line hline => ⟨h line hline, isExit_of_mem_said hline⟩
  have hresume := resume_append goal hsaid ((inputLines input).dropWhile (!isExit ·))
  rw [said, List.takeWhile_append_dropWhile, ← said, resume_after_said] at hresume
  rw [transcript, hresume, String.append_assoc]
  simp

/-- A session breaks off at a line that is no text, after the answers to the lines before it. -/
theorem transcript_of_not_isWellFormed {before after : List (List UInt8)}
    (hsaid : said input = before ++ line :: after)
    (hbefore : ∀ line ∈ before, isWellFormed line = true) (hline : isWellFormed line = false) :
    transcript goal input =
      ⟨prompt ++ String.join (before.map (exchange goal)), before.flatMap (lineEvents goal),
        some notText⟩ := by
  have hanswered : ∀ line ∈ before, isWellFormed line = true ∧ isExit line = false := by
    intro line hmem
    have hmemSaid : line ∈ said input := hsaid ▸ List.mem_append_left _ hmem
    exact ⟨hbefore line hmem, isExit_of_mem_said hmemSaid⟩
  have hlines : inputLines input =
      before ++ line :: (after ++ (inputLines input).dropWhile (!isExit ·)) := by
    conv_lhs => rw [← List.takeWhile_append_dropWhile (p := (!isExit ·)) (l := inputLines input)]
    rw [← said, hsaid, List.append_assoc, List.cons_append]
  rw [transcript, hlines, resume_append goal hanswered, resume, reply_of_not_isWellFormed hline]
  simp

/-- **Sessions.** A session cuts its input at the line feeds, and goes up to the line `.exit`. If
all lines before it are text, it writes for each of them, after a prompt, what is said about its run
as a program of its own, unless the line is blank. It reports what these runs report. What is said
about a run is one line, so the line feeds are one for each line that is not blank, and the last
one. If some line is no text, the session is the one for the lines before it, without the last line
feed, and it fails. -/
theorem transcript_line_by_line (goal : Goal) (input : List UInt8) :
    (∀ lines, Cut input lines ↔ lines = inputLines input) ∧
    ((∀ line ∈ said input, isWellFormed line = true) →
      (transcript goal input).output =
        prompt ++ String.join ((said input).map (exchange goal)) ++ "\n" ∧
      (transcript goal input).output.toList.count '\n' = (said input).countP (!isBlank ·) + 1 ∧
      diagnostics (transcript goal input).events = (said input).flatMap (reports goal) ∧
      (transcript goal input).failure = none) ∧
    (∀ before line after, said input = before ++ line :: after →
      (∀ line ∈ before, isWellFormed line = true) → isWellFormed line = false →
      (transcript goal input).output = prompt ++ String.join (before.map (exchange goal)) ∧
      diagnostics (transcript goal input).events = before.flatMap (reports goal) ∧
      (transcript goal input).failure = some (.io "stream did not contain valid UTF-8")) ∧
    ∀ line, '\n' ∉ (run goal line).response.toList := by
  refine ⟨fun lines => cut_iff, ?_, ?_, newline_not_mem_response goal⟩
  · intro h
    rw [transcript_of_isWellFormed h]
    have hprompt : prompt.toList.count '\n' = 0 := by decide
    refine ⟨rfl, ?_, diagnostics_flatMap goal _, rfl⟩
    rw [String.toList_append, String.toList_append, List.count_append, List.count_append, hprompt,
      count_newline_exchanges, Nat.zero_add]
    rfl
  · intro before line after hsaid hbefore hline
    rw [transcript_of_not_isWellFormed hsaid hbefore hline]
    exact ⟨rfl, diagnostics_flatMap goal _, rfl⟩

/-- A string, an empty line, a character that begins no token, and a line after the end of the
session. -/
def sessionOctets : List UInt8 :=
  encode ("\"a\"\r\n\n$\n .exit\ntrue".toList)

def brokenOctets : List UInt8 := encode ("true\n".toList) ++ [0xff]

/-- The empty line has no answer, the character has the answer that there is no program, and the
session that is broken ends with a prompt. -/
theorem transcript_sessionOctets :
    (transcript .value sessionOctets).output =
        "sophia> \"a\"\nsophia> sophia> lexer error\nsophia> \n" ∧
      (transcript .value sessionOctets).output.toList.count '\n' = 3 ∧
      (transcript .value brokenOctets).output = "sophia> true\nsophia> " ∧
      (transcript .value brokenOctets).failure =
        some (.io "stream did not contain valid UTF-8") := by
  have hsaid : said sessionOctets =
      [encode ("\"a\"".toList), [], encode ("$".toList)] := by decide
  have hwell : ∀ line ∈ said sessionOctets, isWellFormed line = true := by
    rw [hsaid]
    decide
  have hbroken : said brokenOctets = [encode ("true".toList)] ++ [0xff] :: [] := by decide
  obtain ⟨houtput, hcount, -⟩ := (transcript_line_by_line .value sessionOctets).2.1 hwell
  obtain ⟨hpartial, -, hfailure⟩ := (transcript_line_by_line .value brokenOctets).2.2.1 _ _ _
    hbroken (by decide) (by decide)
  refine ⟨houtput.trans ?_, hcount.trans ?_, hpartial.trans ?_, hfailure⟩
  · rw [hsaid]
    rfl
  · rw [hsaid]
    rfl
  · rfl

end Splice.Session
