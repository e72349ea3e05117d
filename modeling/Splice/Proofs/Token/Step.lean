import Splice.Proofs.Token.Scan

/-!
# Steps of a scan

What one character can make of a scan, case by case: between tokens (`Begins`), between the quotes
of a template (`Interpolates`), and in any mode (`Steps`). What every step keeps follows from the
cases: a scan has stopped if and only if it has found an open template (`isStopped_iff_run`).
-/

namespace Splice.Scan

open Text

def isSpace (c : Char) : Bool := [' ', '\t', '\r', '\n'].contains c

/-- A character that stands for itself in a template. -/
def isPlain (c : Char) : Bool := c != '{' && c != '}' && c != '\'' && c != '\n'

/-! ## The cases -/

/-- What a character between tokens makes of a scan. -/
inductive Begins (s : Scan) (x : Located) : Scan → Prop where
  | blank : isSpace x.char = true → Begins s x (s.into .ground)
  | plus : x.char = '+' → Begins s x (s.into (.plus x.place))
  | semicolon : x.char = ';' → Begins s x (s.into (.semicolon x.place))
  | string : x.char = '"' → Begins s x (s.into (.string x.place []))
  | template : x.char = '\'' → Begins s x ((s.emit .template [] x.place).into (.template []))
  | mark {kind} : Kind.ofChar? x.char = some kind →
      Begins s x ((s.emit kind [x.char] x.place).into .ground)
  | word : isLetter x.char = true → Begins s x (s.into (.word x.place [x.char]))
  | number : x.char.isDigit = true → Begins s x (s.into (.number x.place [x.char]))
  | unknown : x.char ∉ special → Kind.ofChar? x.char = none → isLetter x.char = false →
      x.char.isDigit = false → Begins s x ((s.unknown x).into .ground)

/-- What a character between the quotes of a template makes of a scan. -/
inductive Interpolates (s : Scan) (text : List Located) (x : Located) : Scan → Prop where
  | brace : x.char = '}' → Interpolates s text x (s.into (.template text))
  | slot : x.char = '{' →
      Interpolates s text x ((s.literal text).into (.slot x.place.next []))
  | close : x.char = '\'' →
      Interpolates s text x (((s.literal text).emit .template [] x.place.next).into .ground)
  | stop : x.char = '\n' → Interpolates s text x
      ((s.report .openTemplate [] x.place.line x.place.column).into (.stopped x.place))
  | plain : isPlain x.char = true → Interpolates s text x (s.into (.template (x :: text)))

/-- What a character in a mode makes of a scan. -/
inductive Steps (s : Scan) (x : Located) : Mode → Scan → Prop where
  | ground : Steps s x .ground (s.begin x)
  | merge {start} : x.char = '+' →
      Steps s x (.plus start) ((s.emit .merge ['+', '+'] start).into .ground)
  | plus {start} : x.char ≠ '+' → Steps s x (.plus start) ((s.emit .plus ['+'] start).begin x)
  | openComment {start} : x.char = ';' → Steps s x (.semicolon start) (s.into .comment)
  | semicolon {start} : x.char ≠ ';' →
      Steps s x (.semicolon start) ((s.unknown ⟨';', start⟩).begin x)
  | closeComment : x.char = '\n' → Steps s x .comment (s.into .ground)
  | comment : x.char ≠ '\n' → Steps s x .comment (s.into .comment)
  | closeString {start text} : x.char = '"' →
      Steps s x (.string start text) ((s.emit .string text.reverse start).into .ground)
  | breakString {start text} : x.char = '\n' → Steps s x (.string start text)
      (((s.report .openString text.reverse start.line (start.column + 1)).emit
        .string text.reverse start).into .ground)
  | string {start text} : x.char ≠ '"' → x.char ≠ '\n' →
      Steps s x (.string start text) (s.into (.string start (x.char :: text)))
  | word {start text} : isWord x.char = true →
      Steps s x (.word start text) (s.into (.word start (x.char :: text)))
  | closeWord {start text} : isWord x.char = false →
      Steps s x (.word start text) ((s.word start text).begin x)
  | number {start text} : isNumeric x.char = true →
      Steps s x (.number start text) (s.into (.number start (x.char :: text)))
  | closeNumber {start text} : isNumeric x.char = false →
      Steps s x (.number start text) ((s.emit .number text.reverse start).begin x)
  | template {text} : Steps s x (.template text) (s.inTemplate text x)
  | slot {start text} : isWord x.char = true →
      Steps s x (.slot start text) (s.into (.slot start (x.char :: text)))
  | closeSlot {start text} : isWord x.char = false →
      Steps s x (.slot start text) ((s.word start text).inTemplate [] x)
  | stopped {place} : Steps s x (.stopped place) s

variable {s : Scan} {x : Located} {text : List Located}

theorem special_cases {c : Char} (h : c ∈ special) :
    isSpace c = true ∨ c = '+' ∨ c = ';' ∨ c = '"' ∨ c = '\'' := by
  simpa [special, isSpace, or_assoc] using h

theorem begin_of_isSpace (h : isSpace x.char = true) : s.begin x = s.into .ground := by
  have hx : x.char = ' ' ∨ x.char = '\t' ∨ x.char = '\r' ∨ x.char = '\n' := by
    simpa [isSpace] using h
  rcases hx with hx | hx | hx | hx
  all_goals
    rw [begin, hx]
    rfl

theorem begin_plus (hx : x.char = '+') : s.begin x = s.into (.plus x.place) := by
  rw [begin, hx]
  rfl

theorem begin_semicolon (hx : x.char = ';') : s.begin x = s.into (.semicolon x.place) := by
  rw [begin, hx]
  rfl

theorem begin_quote (hx : x.char = '"') : s.begin x = s.into (.string x.place []) := by
  rw [begin, hx]
  rfl

theorem begin_template (hx : x.char = '\'') :
    s.begin x = (s.emit .template [] x.place).into (.template []) := by
  rw [begin, hx]
  rfl

theorem inTemplate_brace (hx : x.char = '}') : s.inTemplate text x = s.into (.template text) := by
  rw [inTemplate, hx]
  rfl

theorem inTemplate_slot (hx : x.char = '{') :
    s.inTemplate text x = (s.literal text).into (.slot x.place.next []) := by
  rw [inTemplate, hx]
  rfl

theorem inTemplate_close (hx : x.char = '\'') :
    s.inTemplate text x = ((s.literal text).emit .template [] x.place.next).into .ground := by
  rw [inTemplate, hx]
  rfl

theorem inTemplate_newline (hx : x.char = '\n') : s.inTemplate text x =
    (s.report .openTemplate [] x.place.line x.place.column).into (.stopped x.place) := by
  rw [inTemplate, hx]
  rfl

theorem begins_begin (s : Scan) (x : Located) : s.Begins x (s.begin x) := by
  by_cases hx : x.char ∈ special
  · rcases special_cases hx with hx | hx | hx | hx | hx
    · rw [begin_of_isSpace hx]
      exact .blank hx
    · rw [begin_plus hx]
      exact .plus hx
    · rw [begin_semicolon hx]
      exact .semicolon hx
    · rw [begin_quote hx]
      exact .string hx
    · rw [begin_template hx]
      exact .template hx
  · rw [begin_of_not_special hx]
    split
    case h_1 kind hkind => exact .mark hkind
    case h_2 hkind =>
      split
      case isTrue h => exact .word h
      case isFalse hletter =>
        split
        case isTrue h => exact .number h
        case isFalse hdigit =>
          exact .unknown hx hkind (Bool.eq_false_iff.mpr hletter) (Bool.eq_false_iff.mpr hdigit)

theorem interpolates_inTemplate (s : Scan) (text : List Located) (x : Located) :
    s.Interpolates text x (s.inTemplate text x) := by
  unfold inTemplate
  split
  case h_1 hx => exact .brace hx
  case h_2 hx => exact .slot hx
  case h_3 hx => exact .close hx
  case h_4 hx => exact .stop hx
  case h_5 hclose hopen hquote hline =>
    exact .plain (by simpa [isPlain] using ⟨⟨⟨hopen, hclose⟩, hquote⟩, hline⟩)

theorem steps_step (s : Scan) (x : Located) : s.Steps x s.mode (s.step x) := by
  unfold step
  cases hmode : s.mode with
  | ground => exact .ground
  | plus start =>
    dsimp only
    split
    case isTrue hx => exact .merge hx
    case isFalse hx => exact .plus hx
  | semicolon start =>
    dsimp only
    split
    case isTrue hx => exact .openComment hx
    case isFalse hx => exact .semicolon hx
  | comment =>
    dsimp only
    split
    case isTrue hx => exact .closeComment hx
    case isFalse hx =>
      have hs : s.into .comment = s := by rw [← hmode]; rfl
      exact hs ▸ .comment hx
  | string start text =>
    dsimp only
    split
    case isTrue hx => exact .closeString hx
    case isFalse hquote =>
      split
      case isTrue hx => exact .breakString hx
      case isFalse hline => exact .string hquote hline
  | word start text =>
    dsimp only
    split
    case isTrue hx => exact .word hx
    case isFalse hx => exact .closeWord (Bool.eq_false_iff.mpr hx)
  | number start text =>
    dsimp only
    split
    case isTrue hx => exact .number hx
    case isFalse hx => exact .closeNumber (Bool.eq_false_iff.mpr hx)
  | template text => exact .template
  | slot start text =>
    dsimp only
    split
    case isTrue hx => exact .slot hx
    case isFalse hx => exact .closeSlot (Bool.eq_false_iff.mpr hx)
  | stopped place => exact .stopped

theorem problems_literal (s : Scan) (text : List Located) :
    (s.literal text).problems = s.problems := by
  unfold literal
  split <;> rfl

/-! ## Stopping -/

def IsStopped (s : Scan) : Prop := ∃ place, s.mode = .stopped place

def HasOpenTemplate (problems : List Problem) : Prop := ∃ p ∈ problems, p.fault = .openTemplate

theorem hasOpenTemplate_cons {p : Problem} {problems : List Problem} :
    HasOpenTemplate (p :: problems) ↔ p.fault = .openTemplate ∨ HasOpenTemplate problems := by
  simp [HasOpenTemplate]

theorem not_isStopped_into {mode : Mode} (h : ∀ place, mode ≠ .stopped place) :
    ¬(s.into mode).IsStopped := by
  rintro ⟨place, hplace⟩
  exact h place hplace

theorem begin_not_stops (s : Scan) (x : Located) : ¬(s.begin x).IsStopped ∧
    (HasOpenTemplate (s.begin x).problems ↔ HasOpenTemplate s.problems) := by
  have h := s.begins_begin x
  generalize s.begin x = s' at h
  cases h with
  | unknown =>
    refine ⟨not_isStopped_into (by simp), hasOpenTemplate_cons.trans ?_⟩
    simp
  | _ => exact ⟨not_isStopped_into (by simp), Iff.rfl⟩

/-- Only a line feed between the quotes of a template stops a scan. -/
theorem inTemplate_stops_iff (s : Scan) (text : List Located) (x : Located) :
    ¬(s.inTemplate text x).IsStopped ∧
        (HasOpenTemplate (s.inTemplate text x).problems ↔ HasOpenTemplate s.problems) ∨
      x.char = '\n' ∧ (s.inTemplate text x).mode = .stopped x.place ∧
        HasOpenTemplate (s.inTemplate text x).problems := by
  have h := s.interpolates_inTemplate text x
  generalize s.inTemplate text x = s' at h
  cases h with
  | stop hx => exact .inr ⟨hx, rfl, hasOpenTemplate_cons.mpr (.inl rfl)⟩
  | slot | close =>
    refine .inl ⟨not_isStopped_into (by simp), ?_⟩
    show HasOpenTemplate (s.literal text).problems ↔ _
    rw [problems_literal]
  | _ => exact .inl ⟨not_isStopped_into (by simp), Iff.rfl⟩

/-- A step that stops a scan reads a line feed, stops at its place, and finds an open template. -/
theorem step_stops_iff (hs : ¬s.IsStopped) (x : Located) :
    ¬(s.step x).IsStopped ∧
        (HasOpenTemplate (s.step x).problems ↔ HasOpenTemplate s.problems) ∨
      x.char = '\n' ∧ (s.step x).mode = .stopped x.place ∧
        HasOpenTemplate (s.step x).problems := by
  have h := s.steps_step x
  generalize hmode : s.mode = mode at h
  generalize s.step x = s' at h
  cases h with
  | ground => exact .inl (begin_not_stops s x)
  | plus => exact .inl (begin_not_stops (s.emit _ _ _) x)
  | semicolon =>
    obtain ⟨hstopped, hopen⟩ := begin_not_stops (s.unknown _) x
    refine .inl ⟨hstopped, hopen.trans (hasOpenTemplate_cons.trans ?_)⟩
    simp
  | breakString =>
    refine .inl ⟨not_isStopped_into (by simp), hasOpenTemplate_cons.trans ?_⟩
    simp
  | closeWord => exact .inl (begin_not_stops (s.word _ _) x)
  | closeNumber => exact .inl (begin_not_stops (s.emit _ _ _) x)
  | template => exact inTemplate_stops_iff s _ x
  | closeSlot => exact inTemplate_stops_iff (s.word _ _) [] x
  | stopped => exact absurd ⟨_, hmode⟩ hs
  | _ => exact .inl ⟨not_isStopped_into (by simp), Iff.rfl⟩

theorem step_of_isStopped (hs : s.IsStopped) (x : Located) : s.step x = s := by
  obtain ⟨place, hplace⟩ := hs
  unfold step
  rw [hplace]

theorem run_of_isStopped (hs : s.IsStopped) (xs : List Located) : s.run xs = s := by
  induction xs with
  | nil => rfl
  | cons x xs ih => rw [run_cons, step_of_isStopped hs, ih]

theorem isStopped_iff_run (hs : s.IsStopped ↔ HasOpenTemplate s.problems) (xs : List Located) :
    (s.run xs).IsStopped ↔ HasOpenTemplate (s.run xs).problems := by
  induction xs generalizing s with
  | nil => exact hs
  | cons x xs ih =>
    apply ih
    by_cases hstopped : s.IsStopped
    · rwa [step_of_isStopped hstopped]
    rcases step_stops_iff hstopped x with ⟨hstep, hopen⟩ | ⟨-, hmode, hopen⟩
    · exact iff_of_false hstep fun h => hstopped (hs.mpr (hopen.mp h))
    · exact iff_of_true ⟨_, hmode⟩ hopen

theorem isStopped_run_fresh (xs : List Located) :
    (fresh.run xs).IsStopped ↔ HasOpenTemplate (fresh.run xs).problems := by
  apply isStopped_iff_run
  simp [IsStopped, HasOpenTemplate, fresh]

theorem not_isStopped_run (hs : ¬s.IsStopped) {xs : List Located} (h : ∀ x ∈ xs, x.char ≠ '\n') :
    ¬(s.run xs).IsStopped := by
  induction xs generalizing s with
  | nil => exact hs
  | cons x xs ih =>
    obtain ⟨hx, hxs⟩ := List.forall_mem_cons.mp h
    rcases step_stops_iff hs x with ⟨hstep, -⟩ | ⟨hline, -⟩
    · exact ih hstep hxs
    · exact absurd hline hx

/-- No more than a template goes on over a line feed. -/
theorem mode_step_newline (hx : x.char = '\n') :
    (s.step x).mode = .ground ∨ (s.step x).IsStopped := by
  have hbegin (s : Scan) : (s.begin x).mode = .ground := by
    rw [begin_of_isSpace (by rw [hx]; rfl)]
    rfl
  have hinTemplate (s : Scan) (text : List Located) : (s.inTemplate text x).IsStopped := by
    rw [inTemplate_newline hx]
    exact ⟨x.place, rfl⟩
  have hword : isWord x.char = false := by rw [hx]; decide
  have hnumeric : isNumeric x.char = false := by rw [hx]; decide
  have h := s.steps_step x
  generalize hmode : s.mode = mode at h
  generalize s.step x = s' at h
  cases h with
  | ground | plus | semicolon | closeWord | closeNumber => exact .inl (hbegin _)
  | template | closeSlot => exact .inr (hinTemplate _ _)
  | stopped => exact .inr ⟨_, hmode⟩
  | merge | closeComment | closeString | breakString => exact .inl rfl
  | openComment h => exact absurd (hx.symm.trans h) (by decide)
  | string _ h | comment h => exact absurd hx h
  | word h | slot h => exact absurd (hword.symm.trans h) Bool.false_ne_true
  | number h => exact absurd (hnumeric.symm.trans h) Bool.false_ne_true

theorem mode_run_newline (s : Scan) (xs : List Located) (stop : Location) :
    (s.run (xs ++ [⟨'\n', stop⟩])).mode = .ground ∨
      (s.run (xs ++ [⟨'\n', stop⟩])).IsStopped := by
  rw [run_append]
  exact mode_step_newline rfl

end Splice.Scan

namespace Splice.Pass

variable {xs : List Located} {stop place : Location}

/-! ## Passes -/

/-- A pass is a scan of the characters with a line feed at their end. -/
theorem ofChars_of_ground (h : (Scan.fresh.run (xs ++ [⟨'\n', stop⟩])).mode = .ground) :
    ofChars xs stop = ⟨(Scan.fresh.run (xs ++ [⟨'\n', stop⟩])).tokens.reverse ++
      [.atEnd stop.offset stop.line],
      (Scan.fresh.run (xs ++ [⟨'\n', stop⟩])).problems.reverse, stop⟩ := by
  rw [Scan.run_append] at h ⊢
  unfold ofChars
  dsimp only
  split
  case h_1 place hplace => exact Mode.noConfusion (h.symm.trans hplace)
  case h_2 => rfl

theorem ofChars_of_stopped (h : (Scan.fresh.run (xs ++ [⟨'\n', stop⟩])).mode = .stopped place) :
    ofChars xs stop =
      ⟨[], (Scan.fresh.run (xs ++ [⟨'\n', stop⟩])).problems.reverse, place⟩ := by
  rw [Scan.run_append] at h ⊢
  have hfinish : ((Scan.fresh.run xs).finish stop).mode = .stopped place := h
  unfold ofChars
  dsimp only
  rw [hfinish]
  rfl

theorem problems_ofChars (xs : List Located) (stop : Location) : (ofChars xs stop).problems =
    (Scan.fresh.run (xs ++ [⟨'\n', stop⟩])).problems.reverse := by
  rcases Scan.mode_run_newline Scan.fresh xs stop with h | ⟨place, h⟩
  · rw [ofChars_of_ground h]
  · rw [ofChars_of_stopped h]

end Splice.Pass
