import Mathlib.Data.List.Induction
import Splice.Proofs.Token.Step

/-!
# Problems of a scan

What a scan reports of a character depends only on the character and on what the scan is inside of
(`Mode.reports`), and the problems of a scan are what it has reported of each of its characters
(`mem_problems_run`). Its faults are three, and an open template is the last one that a scan finds
(`fault_ne_of_mem_tail`).
-/

namespace Splice

open Text Scan

def Scan.isStray (c : Char) : Bool :=
  !special.contains c && (Kind.ofChar? c).isNone && !isLetter c && !c.isDigit

namespace Located

def unknown (x : Located) : Problem :=
  ⟨.unknownCharacter, x.place.line, x.place.column, String.ofList [x.char]⟩

/-- What is reported of a character between tokens. -/
def strays (x : Located) : List Problem := if isStray x.char then [x.unknown] else []

/-- What is reported of a character between the quotes of a template. -/
def breaks (x : Located) : List Problem :=
  if x.char = '\n' then [⟨.openTemplate, x.place.line, x.place.column, ""⟩] else []

end Located

/-- What is reported of a character inside of something, the latest first. A second semicolon or
none decides about the first. -/
def Mode.reports (x : Located) : Mode → List Problem
  | ground | plus _ | number _ _ => x.strays
  | semicolon start => if x.char = ';' then [] else x.strays ++ [Located.unknown ⟨';', start⟩]
  | string start text =>
    if x.char = '\n' then
      [⟨.openString, start.line, start.column + 1, String.ofList text.reverse⟩]
    else []
  | word _ _ => if isWord x.char then [] else x.strays
  | template _ | slot _ _ => x.breaks
  | comment | stopped _ => []

namespace Scan

variable {s : Scan} {x : Located} {p : Problem}

theorem isStray_of_isNumeric {c : Char} (h : isNumeric c = true) : isStray c = false := by
  have hc : c.isDigit = true ∨ c = '.' ∨ c = '_' ∨ c = 'e' ∨ c = '-' := by
    simpa [isNumeric, or_assoc] using h
  rcases hc with hc | rfl | rfl | rfl | rfl
  · rw [isStray, hc, Bool.not_true, Bool.and_false]
  all_goals decide

/-! ## What one character adds -/

theorem problems_begin (s : Scan) (x : Located) :
    (s.begin x).problems = x.strays ++ s.problems := by
  have hnot (h : isStray x.char = false) : x.strays = [] := if_neg (by simp [h])
  have h := s.begins_begin x
  generalize s.begin x = s' at h
  cases h with
  | unknown hspecial hkind hletter hdigit =>
    have hstray : isStray x.char = true := by simp [isStray, hspecial, hkind, hletter, hdigit]
    rw [Located.strays, if_pos hstray]
    rfl
  | blank hx =>
    have hspecial : special.contains x.char = true := by
      have hx : x.char = ' ' ∨ x.char = '\t' ∨ x.char = '\r' ∨ x.char = '\n' := by
        simpa [isSpace] using hx
      rcases hx with hx | hx | hx | hx <;> rw [hx] <;> decide
    rw [hnot (by rw [isStray, hspecial]; rfl)]
    rfl
  | plus hx | semicolon hx | string hx | template hx =>
    rw [hnot (by rw [hx]; decide)]
    rfl
  | mark hx | word hx | number hx =>
    rw [hnot (by simp [isStray, hx])]
    rfl

theorem problems_inTemplate (s : Scan) (text : List Located) (x : Located) :
    (s.inTemplate text x).problems = x.breaks ++ s.problems := by
  have hnot (h : x.char ≠ '\n') : x.breaks = [] := if_neg h
  have h := s.interpolates_inTemplate text x
  generalize s.inTemplate text x = s' at h
  cases h with
  | stop hx =>
    rw [Located.breaks, if_pos hx]
    rfl
  | brace hx =>
    rw [hnot (by rw [hx]; decide)]
    rfl
  | slot hx | close hx =>
    rw [hnot (by rw [hx]; decide)]
    exact problems_literal s text
  | plain hx =>
    have hline : x.char ≠ '\n' := by
      intro hline
      rw [hline] at hx
      exact absurd hx (by decide)
    rw [hnot hline]
    rfl

theorem problems_step (s : Scan) (x : Located) :
    (s.step x).problems = s.mode.reports x ++ s.problems := by
  have h := s.steps_step x
  generalize s.step x = s' at h
  generalize s.mode = mode at h ⊢
  cases h with
  | ground => exact problems_begin s x
  | plus hx => exact problems_begin (s.emit _ _ _) x
  | merge hx =>
    rw [Mode.reports, Located.strays, if_neg (by rw [hx]; decide)]
    rfl
  | openComment hx =>
    rw [Mode.reports, if_pos hx]
    rfl
  | semicolon hx =>
    rw [Mode.reports, if_neg hx, List.append_assoc]
    exact problems_begin (s.unknown _) x
  | closeString hx =>
    rw [Mode.reports, if_neg (by rw [hx]; decide)]
    rfl
  | breakString hx =>
    rw [Mode.reports, if_pos hx]
    rfl
  | string hquote hline =>
    rw [Mode.reports, if_neg hline]
    rfl
  | word hx =>
    rw [Mode.reports, if_pos hx]
    rfl
  | closeWord hx =>
    rw [Mode.reports, if_neg (by simp [hx])]
    exact problems_begin (s.word _ _) x
  | number hx =>
    rw [Mode.reports, Located.strays, isStray_of_isNumeric hx]
    rfl
  | closeNumber hx => exact problems_begin (s.emit _ _ _) x
  | template => exact problems_inTemplate s _ x
  | slot hx =>
    have hline : x.char ≠ '\n' := by
      intro hline
      rw [hline] at hx
      exact absurd hx (by decide)
    rw [Mode.reports, Located.breaks, if_neg hline]
    rfl
  | closeSlot hx => exact problems_inTemplate (s.word _ _) [] x
  | closeComment | comment | stopped => rfl

theorem problems_run (s : Scan) (xs : List Located) : s.problems <:+ (s.run xs).problems := by
  induction xs generalizing s with
  | nil => exact List.suffix_rfl
  | cons x xs ih =>
    rw [run_cons]
    refine List.IsSuffix.trans ?_ (ih (s.step x))
    rw [problems_step]
    exact List.suffix_append _ _

/-- The problems of a scan are those of its characters, each in the mode before it. -/
theorem mem_problems_run {xs : List Located} : p ∈ (s.run xs).problems ↔
    p ∈ s.problems ∨
      ∃ before x after, xs = before ++ x :: after ∧ p ∈ (s.run before).mode.reports x := by
  induction xs generalizing s with
  | nil => simp
  | cons x xs ih =>
    rw [run_cons, ih, problems_step, List.mem_append, or_comm (a := p ∈ s.mode.reports x),
      or_assoc]
    refine or_congr_right ?_
    constructor
    · rintro (h | ⟨before, y, after, rfl, h⟩)
      · exact ⟨[], x, xs, rfl, h⟩
      · exact ⟨x :: before, y, after, rfl, h⟩
    · rintro ⟨before, y, after, hxs, h⟩
      cases before with
      | nil =>
        obtain ⟨rfl, rfl⟩ := List.cons.inj hxs
        exact .inl h
      | cons z before =>
        obtain ⟨rfl, rfl⟩ := List.cons.inj hxs
        exact .inr ⟨before, y, after, rfl, h⟩

/-! ## Faults of a scan -/

/-- One character has no open template and another fault at once. -/
theorem fault_reports (mode : Mode) (x : Located) :
    (∀ p ∈ mode.reports x, p.fault = .unknownCharacter ∨ p.fault = .openString) ∨
      ∃ p, mode.reports x = [p] ∧ p.fault = .openTemplate := by
  have hstrays : ∀ p ∈ x.strays, p.fault = .unknownCharacter ∨ p.fault = .openString := by
    unfold Located.strays
    split
    case isTrue => exact List.forall_mem_singleton.mpr (.inl rfl)
    case isFalse => exact List.forall_mem_nil _
  have hbreaks : (∀ p ∈ x.breaks, p.fault = .unknownCharacter ∨ p.fault = .openString) ∨
      ∃ p, x.breaks = [p] ∧ p.fault = .openTemplate := by
    unfold Located.breaks
    split
    case isTrue => exact .inr ⟨_, rfl, rfl⟩
    case isFalse => exact .inl (List.forall_mem_nil _)
  cases mode with
  | ground | plus | number => exact .inl hstrays
  | template | slot => exact hbreaks
  | comment | stopped => exact .inl (List.forall_mem_nil _)
  | semicolon =>
    rw [Mode.reports]
    split
    case isTrue => exact .inl (List.forall_mem_nil _)
    case isFalse =>
      exact .inl (List.forall_mem_append.mpr ⟨hstrays, List.forall_mem_singleton.mpr (.inl rfl)⟩)
  | string =>
    rw [Mode.reports]
    split
    case isTrue => exact .inl (List.forall_mem_singleton.mpr (.inr rfl))
    case isFalse => exact .inl (List.forall_mem_nil _)
  | word =>
    rw [Mode.reports]
    split
    case isTrue => exact .inl (List.forall_mem_nil _)
    case isFalse => exact .inl hstrays

theorem fault_of_mem_run {xs : List Located} (h : p ∈ (fresh.run xs).problems) :
    p.fault ∈ [.unknownCharacter, .openString, .openTemplate] := by
  obtain ⟨before, x, after, -, hp⟩ := (mem_problems_run.mp h).resolve_left List.not_mem_nil
  rcases fault_reports (fresh.run before).mode x with hfault | ⟨q, hq, hfault⟩
  · rcases hfault p hp with hfault | hfault <;> simp [hfault]
  · rw [hq, List.mem_singleton] at hp
    simp [hp, hfault]

/-- Only the latest problem of a scan may be an open template, since it stops the scan. -/
theorem fault_ne_of_mem_tail (xs : List Located) :
    ∀ p ∈ (fresh.run xs).problems.tail, p.fault ≠ .openTemplate := by
  induction xs using List.reverseRecOn with
  | nil => exact List.forall_mem_nil _
  | append_singleton xs x ih =>
    rw [run_append, run_cons, run_nil]
    by_cases hstopped : (fresh.run xs).IsStopped
    · rwa [step_of_isStopped hstopped]
    · have hnone : ∀ p ∈ (fresh.run xs).problems, p.fault ≠ .openTemplate := by
        intro p hp hfault
        exact hstopped ((isStopped_run_fresh xs).mpr ⟨p, hp, hfault⟩)
      rw [problems_step]
      rcases fault_reports (fresh.run xs).mode x with hfault | ⟨p, hreports, -⟩
      · intro p hp
        rcases List.mem_append.mp (List.mem_of_mem_tail hp) with hp | hp
        · rcases hfault p hp with hfault | hfault <;> simp [hfault]
        · exact hnone p hp
      · rw [hreports]
        exact hnone

end Scan

end Splice
