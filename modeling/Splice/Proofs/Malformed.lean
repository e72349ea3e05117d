import Splice.Proofs.Lines
import Splice.Proofs.Outcome

/-!
# Malformed octets

A malformed part of a source stands for one replacement character. Where a scan asks what a
character begins, it reports the replacement as an unknown character; in a comment, in a string and
in a template it takes any character (`unknown_mem_reports_iff`). A character that a string or a
template takes is in a token, unless the scan stops (`Holds.run`). So a malformed part is reported,
left out with a comment, or in a token (`scanRun_malformed_iff`).
-/

namespace Splice

open Text Scan

/-- Whether a scan takes all but a few characters as they are: in a text, in a comment, or after an
open template. -/
def Mode.isVerbatim : Mode → Bool
  | comment | string _ _ | template _ | slot _ _ | stopped _ => true
  | ground | plus _ | semicolon _ | word _ _ | number _ _ => false

/-- What a scan of a source is inside of after some of its pieces. -/
def Mode.after (ps : List Piece) : Mode := (fresh.run (locate .origin ps)).mode

def Located.replacement (l : Location) : Located := ⟨'\uFFFD', l⟩

variable {x : Located} {mode : Mode} {p : Problem} {l : Location}

/-! ## What is reported -/

theorem isStray_replacement : isStray '\uFFFD' = true := by decide +kernel

theorem isWord_replacement : isWord '\uFFFD' = false := by decide +kernel

theorem eq_unknown_of_mem_strays (h : p ∈ x.strays) : p = x.unknown := by
  unfold Located.strays at h
  split at h
  case isTrue => exact List.mem_singleton.mp h
  case isFalse => exact absurd h List.not_mem_nil

/-- Unknown characters are reported where a scan asks what a character begins: the character itself,
or a semicolon before it. -/
theorem unknown_of_mem_reports (h : p ∈ mode.reports x) (hfault : p.fault = .unknownCharacter) :
    mode.isVerbatim = false ∧ (p = x.unknown ∨ ∃ start, p = Located.unknown ⟨';', start⟩) := by
  have hbreaks : p ∉ x.breaks := by
    intro hp
    unfold Located.breaks at hp
    split at hp
    case isTrue => simp [List.mem_singleton.mp hp] at hfault
    case isFalse => exact List.not_mem_nil hp
  cases mode with
  | ground | plus | number => exact ⟨rfl, .inl (eq_unknown_of_mem_strays h)⟩
  | semicolon start =>
    rw [Mode.reports] at h
    split at h
    case isTrue => exact absurd h List.not_mem_nil
    case isFalse =>
      rcases List.mem_append.mp h with h | h
      · exact ⟨rfl, .inl (eq_unknown_of_mem_strays h)⟩
      · exact ⟨rfl, .inr ⟨start, List.mem_singleton.mp h⟩⟩
  | word =>
    rw [Mode.reports] at h
    split at h
    case isTrue => exact absurd h List.not_mem_nil
    case isFalse => exact ⟨rfl, .inl (eq_unknown_of_mem_strays h)⟩
  | string =>
    rw [Mode.reports] at h
    split at h
    case isTrue => simp [List.mem_singleton.mp h] at hfault
    case isFalse => exact absurd h List.not_mem_nil
  | template | slot => exact absurd h hbreaks
  | comment | stopped => exact absurd h List.not_mem_nil

theorem unknown_mem_reports_iff (mode : Mode) (l : Location) :
    (Located.replacement l).unknown ∈ mode.reports (.replacement l) ↔ mode.isVerbatim = false := by
  refine ⟨fun h => (unknown_of_mem_reports h rfl).1, fun h => ?_⟩
  have hstrays : (Located.replacement l).unknown ∈ (Located.replacement l).strays := by
    rw [Located.strays, Located.replacement, if_pos isStray_replacement]
    exact List.mem_cons_self
  cases mode with
  | ground | plus | number => exact hstrays
  | semicolon =>
    have hne : (Located.replacement l).char ≠ ';' := show '\uFFFD' ≠ ';' by decide
    rw [Mode.reports, if_neg hne]
    exact List.mem_append_left _ hstrays
  | word =>
    rw [Mode.reports, Located.replacement, isWord_replacement, if_neg Bool.false_ne_true]
    exact hstrays
  | comment | string | template | slot | stopped => cases h

/-- What is reported as a replacement character is one, at the same line and column. -/
theorem eq_of_replacement_mem_reports (h : (Located.replacement l).unknown ∈ mode.reports x) :
    x.char = '\uFFFD' ∧ x.place.line = l.line ∧ x.place.column = l.column := by
  obtain ⟨-, heq | ⟨start, heq⟩⟩ := unknown_of_mem_reports h rfl
  · have htext : String.ofList ['\uFFFD'] = String.ofList [x.char] := congrArg Problem.text heq
    have hchar := List.cons.inj (String.ofList_injective htext)
    exact ⟨hchar.1.symm, (congrArg Problem.line heq).symm, (congrArg Problem.column heq).symm⟩
  · have htext : String.ofList ['\uFFFD'] = String.ofList [';'] := congrArg Problem.text heq
    exact absurd (List.cons.inj (String.ofList_injective htext)).1 (by decide)

/-! ## What is held -/

/-- The text that a scan has read and not made a token of yet. -/
def Mode.pending : Mode → List Char
  | string _ text | word _ text | number _ text | slot _ text => text
  | template text => text.map Located.char
  | _ => []

namespace Scan

variable {c : Char} {s : Scan}

def Keeps (c : Char) (s : Scan) : Prop := ∃ t ∈ s.tokens, c ∈ t.raw.toList

/-- A character is in a token, or in a text that a token will be made of. -/
def Holds (c : Char) (s : Scan) : Prop := s.Keeps c ∨ c ∈ s.mode.pending

theorem Keeps.emit (h : s.Keeps c) (kind : Kind) (text : List Char) (start : Location) :
    (s.emit kind text start).Keeps c := by
  obtain ⟨t, ht, hc⟩ := h
  exact ⟨t, List.mem_cons_of_mem _ ht, hc⟩

theorem keeps_emit {text : List Char} (h : c ∈ text) (s : Scan) (kind : Kind) (start : Location) :
    (s.emit kind text start).Keeps c :=
  ⟨_, List.mem_cons_self, by rwa [String.toList_ofList]⟩

theorem Keeps.literal (h : s.Keeps c) (text : List Located) : (s.literal text).Keeps c := by
  unfold Scan.literal
  split
  case h_1 => exact h
  case h_2 => exact h.emit _ _ _

theorem keeps_literal {text : List Located} (h : c ∈ text.map Located.char) (s : Scan) :
    (s.literal text).Keeps c := by
  unfold Scan.literal
  split
  case h_1 hnil => simp [List.reverse_eq_nil_iff.mp hnil] at h
  case h_2 x xs htext =>
    refine keeps_emit ?_ s _ _
    rwa [← htext, List.map_reverse, List.mem_reverse]

/-- A character between tokens makes no other one go. -/
theorem Keeps.begin (h : s.Keeps c) (x : Located) : (s.begin x).Holds c := by
  have hbegins := s.begins_begin x
  generalize s.begin x = s' at hbegins
  cases hbegins with
  | blank | plus | semicolon | string | word | number => exact .inl h
  | template | mark => exact .inl (h.emit _ _ _)
  | unknown => exact .inl (Keeps.emit (s := s.report _ _ _ _) h _ _ _)

/-- Nor does a character in a template, unless it stops the scan. -/
theorem holds_inTemplate {text : List Located} (h : s.Keeps c ∨ c ∈ text.map Located.char)
    (hstop : ¬(s.inTemplate text x).IsStopped) : (s.inTemplate text x).Holds c := by
  have hliteral : (s.literal text).Keeps c := h.elim (·.literal text) (keeps_literal · s)
  have hinterpolates := s.interpolates_inTemplate text x
  generalize s.inTemplate text x = s' at hinterpolates hstop
  cases hinterpolates with
  | brace => exact h
  | slot => exact .inl hliteral
  | close => exact .inl (hliteral.emit _ _ _)
  | stop => exact absurd ⟨x.place, rfl⟩ hstop
  | plain => exact h.imp_right (List.mem_cons_of_mem _)

/-- A scan that does not stop holds what it held. -/
theorem Holds.step (h : s.Holds c) (hstop : ¬(s.step x).IsStopped) : (s.step x).Holds c := by
  have hemit (text : List Char) (kind : Kind) (start : Location)
      (h : s.Keeps c ∨ c ∈ text) : (s.emit kind text.reverse start).Keeps c :=
    h.elim (·.emit _ _ _) (fun hc => keeps_emit (List.mem_reverse.mpr hc) s _ _)
  have hsteps := s.steps_step x
  unfold Holds at h
  generalize s.step x = s' at hsteps hstop ⊢
  generalize s.mode = mode at hsteps h
  cases hsteps with
  | ground => exact Keeps.begin (h.resolve_right List.not_mem_nil) x
  | plus => exact Keeps.begin ((h.resolve_right List.not_mem_nil).emit _ _ _) x
  | merge => exact .inl ((h.resolve_right List.not_mem_nil).emit _ _ _)
  | semicolon =>
    have hkeeps := h.resolve_right List.not_mem_nil
    exact Keeps.begin (Keeps.emit (s := s.report _ _ _ _) hkeeps _ _ _) x
  | openComment | closeComment | comment => exact .inl (h.resolve_right List.not_mem_nil)
  | @closeString start text => exact .inl (hemit text _ _ h)
  | @breakString start text => exact .inl (hemit text .string start h)
  | string | word | number | slot => exact h.imp_right (List.mem_cons_of_mem _)
  | closeWord => exact Keeps.begin (hemit _ _ _ h) x
  | closeNumber => exact Keeps.begin (hemit _ _ _ h) x
  | template => exact holds_inTemplate h hstop
  | closeSlot => exact holds_inTemplate (.inl (hemit _ _ _ h)) hstop
  | stopped => exact .inl (h.resolve_right List.not_mem_nil)

theorem Holds.run (h : s.Holds c) {xs : List Located} (hstop : ¬(s.run xs).IsStopped) :
    (s.run xs).Holds c := by
  induction xs generalizing s with
  | nil => exact h
  | cons x xs ih =>
    have hx : ¬(s.step x).IsStopped := by
      intro hx
      rw [run_cons, run_of_isStopped hx] at hstop
      exact hstop hx
    exact ih (h.step hx) hstop

/-- A string or a template takes a replacement character as it is. -/
theorem holds_step_replacement (l : Location) (hmode : s.mode.isVerbatim = true)
    (hcomment : s.mode ≠ .comment) (hstop : ¬s.IsStopped) :
    (s.step (.replacement l)).Holds '\uFFFD' := by
  have hplain (s : Scan) (text : List Located) :
      (s.inTemplate text (.replacement l)).Holds '\uFFFD' :=
    .inr List.mem_cons_self
  have hword : ¬isWord (Located.replacement l).char = true :=
    Bool.eq_false_iff.mp isWord_replacement
  unfold Scan.step
  cases h : s.mode with
  | string => exact .inr List.mem_cons_self
  | template => exact hplain _ _
  | slot =>
    dsimp only
    rw [if_neg hword]
    exact hplain _ _
  | comment => exact absurd h hcomment
  | stopped place => exact absurd ⟨place, h⟩ hstop
  | ground | plus | semicolon | word | number => simp [h, Mode.isVerbatim] at hmode

end Scan

/-! ## Malformed parts -/

section

variable {octets part : List UInt8} {before after : List Piece}

theorem terminated_malformed (h : decode octets = before ++ .malformed part :: after) :
    ∃ rest, (Source.ofOctets octets).terminated =
      locate .origin before ++ .replacement (Location.origin.read before) :: rest := by
  have hlocated : (Source.ofOctets octets).located = locate .origin (decode octets) := rfl
  rw [Source.terminated, hlocated, h, locate_append, List.append_assoc]
  exact ⟨_, rfl⟩

/-- A malformed part is reported where a scan is not inside of a text or a comment. -/
theorem mem_diagnostics_malformed_iff (h : decode octets = before ++ .malformed part :: after) :
    (∃ d ∈ (scanRun (.ofOctets octets)).diagnostics,
        d.problem = (Located.replacement (Location.origin.read before)).unknown) ↔
      (Mode.after before).isVerbatim = false := by
  obtain ⟨rest, hrest⟩ := terminated_malformed h
  have hmem : (∃ d ∈ (scanRun (.ofOctets octets)).diagnostics,
        d.problem = (Located.replacement (Location.origin.read before)).unknown) ↔
      (Located.replacement (Location.origin.read before)).unknown ∈
        (fresh.run (Source.ofOctets octets).terminated).problems := by
    rw [← List.mem_reverse, ← map_problem_scanRun, List.mem_map]
  rw [hmem, mem_problems_run, hrest]
  constructor
  · rintro (hnil | ⟨earlier, x, later, heq, hx⟩)
    · exact absurd hnil List.not_mem_nil
    · -- two characters at one line and column are the same one
      obtain ⟨-, hline, hcolumn⟩ := eq_of_replacement_mem_reports hx
      have hpairwise := pairwise_precedes_locate .origin (decode (octets ++ [10]))
      rw [← Source.terminated_ofOctets, hrest] at hpairwise
      obtain rfl := eq_of_append_cons_eq hpairwise heq
        (by simp [Location.Precedes, Located.replacement, hline, hcolumn])
        (by simp [Location.Precedes, Located.replacement, hline, hcolumn])
      exact (unknown_of_mem_reports hx rfl).1
  · intro hmode
    exact .inr ⟨_, _, _, rfl, (unknown_mem_reports_iff _ _).mpr hmode⟩

/-- A malformed part of a source without problems is left out with a comment, or is in a token. -/
theorem mem_tokens_malformed (h : decode octets = before ++ .malformed part :: after)
    (hmode : (Mode.after before).isVerbatim = true) {tokens : List Token}
    (hok : (scanRun (.ofOctets octets)).outcome = .ok tokens) :
    Mode.after before = .comment ∨ ∃ t ∈ tokens, '\uFFFD' ∈ t.raw.toList := by
  obtain ⟨rest, hrest⟩ := terminated_malformed h
  obtain ⟨hground, hsubset⟩ := scan_of_outcome_scanRun hok
  have hgoes : ¬(fresh.run (Source.ofOctets octets).terminated).IsStopped := by
    rintro ⟨place, hplace⟩
    exact Mode.noConfusion (hground.symm.trans hplace)
  rw [hrest, run_append, run_cons] at hground hsubset hgoes
  refine or_iff_not_imp_left.mpr fun hcomment => ?_
  have hstop : ¬(fresh.run (locate .origin before)).IsStopped := by
    intro hstop
    rw [step_of_isStopped hstop, run_of_isStopped hstop] at hgoes
    exact hgoes hstop
  have hholds := (holds_step_replacement (Location.origin.read before) hmode hcomment hstop).run
    hgoes
  rw [Holds, hground] at hholds
  obtain ⟨t, ht, hc⟩ := hholds.resolve_right List.not_mem_nil
  exact ⟨t, hsubset t ht, hc⟩

/-- **Malformed octets.** A malformed part is reported if and only if it is not in a comment, in a
string, or in a template or after an open one; then every run fails in scanning. Where scanning
succeeds, the part is in a comment, or a token has its replacement character. -/
theorem scanRun_malformed_iff (h : decode octets = before ++ .malformed part :: after) :
    ((∃ d ∈ (scanRun (.ofOctets octets)).diagnostics,
        d.problem = (Located.replacement (Location.origin.read before)).unknown) ↔
      (Mode.after before).isVerbatim = false) ∧
    ((Mode.after before).isVerbatim = false → ∀ goal, (run goal octets).outcome = .error .scan) ∧
    ∀ tokens, (scanRun (.ofOctets octets)).outcome = .ok tokens →
      Mode.after before = .comment ∨ ∃ t ∈ tokens, '\uFFFD' ∈ t.raw.toList := by
  have hfails (hmode : (Mode.after before).isVerbatim = false) (goal : Goal) :
      (run goal octets).outcome = .error .scan := by
    obtain ⟨d, hd, -⟩ := (mem_diagnostics_malformed_iff h).mpr hmode
    exact (outcome_runSource_iff goal _).2.1.mpr (List.ne_nil_of_mem hd)
  refine ⟨mem_diagnostics_malformed_iff h, hfails, fun tokens hok => ?_⟩
  cases hmode : (Mode.after before).isVerbatim with
  | true => exact mem_tokens_malformed h hmode hok
  | false =>
    obtain ⟨d, hd, -⟩ := (mem_diagnostics_malformed_iff h).mpr hmode
    rcases scanRun_cases (.ofOctets octets) with ⟨hnil, -⟩ | ⟨-, herror, -⟩
    · exact absurd (hnil ▸ hd) List.not_mem_nil
    · cases herror.symm.trans hok

end

/-- An octet that begins no character, after a word. -/
def brokenWordOctets : List UInt8 := [0x61, 0xFF]

/-- It is reported, and every run fails. -/
theorem scanRun_malformed_afterWord :
    decode brokenWordOctets = [.encoded 'a', .malformed [0xFF]] ∧
      (∃ d ∈ (scanRun (.ofOctets brokenWordOctets)).diagnostics,
        d.problem = ⟨.unknownCharacter, 0, 1, "\uFFFD"⟩) ∧
      ∀ goal, (run goal brokenWordOctets).outcome = .error .scan := by
  have hdecode : decode brokenWordOctets = [.encoded 'a'] ++ .malformed [0xFF] :: [] := rfl
  obtain ⟨hreported, hfails, -⟩ := scanRun_malformed_iff hdecode
  have hmode : (Mode.after [.encoded 'a']).isVerbatim = false := rfl
  exact ⟨hdecode, hreported.mpr hmode, hfails hmode⟩

/-- An octet that begins no character, in a string. -/
def brokenStringOctets : List UInt8 := [0x22, 0xFF, 0x22]

/-- Nothing is reported of it, and its replacement character is in the token, in the value and in
the script. -/
theorem scanRun_malformed_inString :
    isWellFormed brokenStringOctets = false ∧
      (scanRun (.ofOctets brokenStringOctets)).diagnostics = [] ∧
      (scanRun (.ofOctets brokenStringOctets)).outcome =
        .ok [⟨.string, "\uFFFD", 0, 0⟩, .atEnd 3 0] ∧
      (run .value brokenStringOctets).outcome = .ok (.value (.string "\uFFFD")) ∧
      (run .script brokenStringOctets).outcome = .ok (.script "\"\uFFFD\"") :=
  ⟨rfl, rfl, rfl, rfl, rfl⟩

end Splice
