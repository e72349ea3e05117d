import Splice.Proofs.Token.Lexeme

/-!
# Scans of a line

A scan of a line by itself, as part of the scan of a source: on the place of the line in the source,
and after what was found before it (`Scan.onLine`). No step looks at places or at what was found, so
the steps of the two scans are the same (`run_onLine`).
-/

namespace Splice

/-- A line of a source: its octets without a line feed, and the octets and lines before it. -/
structure Line where
  octets : List UInt8
  start : Nat
  index : Nat
deriving DecidableEq

/-- A location on a line by itself, as a location in the source. -/
def Location.onLine (n : Line) (l : Location) : Location := ⟨n.start + l.offset, n.index, l.column⟩

def Located.onLine (n : Line) (x : Located) : Located := ⟨x.char, x.place.onLine n⟩

def Token.onLine (n : Line) (t : Token) : Token :=
  { t with offset := n.start + t.offset, line := n.index }

def Problem.onLine (n : Line) (p : Problem) : Problem := { p with line := n.index }

def Mode.onLine (n : Line) : Mode → Mode
  | ground => ground
  | plus start => plus (start.onLine n)
  | semicolon start => semicolon (start.onLine n)
  | comment => comment
  | string start text => string (start.onLine n) text
  | word start text => word (start.onLine n) text
  | number start text => number (start.onLine n) text
  | template text => template (text.map (·.onLine n))
  | slot start text => slot (start.onLine n) text
  | stopped place => stopped (place.onLine n)

namespace Scan

/-- The scan of a line as part of the scan of the source, after the scan of what is before it. -/
def onLine (s : Scan) (n : Line) (before : Scan) : Scan :=
  ⟨s.mode.onLine n, s.tokens.map (·.onLine n) ++ before.tokens,
    s.problems.map (·.onLine n) ++ before.problems⟩

variable (n : Line) (before s : Scan) (x : Located)

theorem literal_onLine (text : List Located) :
    (s.onLine n before).literal (text.map (·.onLine n)) = (s.literal text).onLine n before := by
  unfold literal
  rw [← List.map_reverse]
  cases text.reverse with
  | nil => rfl
  | cons y ys =>
    rw [List.map_cons]
    dsimp only
    rw [← List.map_cons, List.map_map]
    rfl

theorem begin_onLine : (s.onLine n before).begin (x.onLine n) = (s.begin x).onLine n before := by
  have hx' : (x.onLine n).char = x.char := rfl
  by_cases hx : x.char ∈ special
  · rcases special_cases hx with hx | hx | hx | hx | hx
    · rw [begin_of_isSpace hx, begin_of_isSpace (hx'.symm ▸ hx)]
      rfl
    · rw [begin_plus hx, begin_plus (hx'.trans hx)]
      rfl
    · rw [begin_semicolon hx, begin_semicolon (hx'.trans hx)]
      rfl
    · rw [begin_quote hx, begin_quote (hx'.trans hx)]
      rfl
    · rw [begin_template hx, begin_template (hx'.trans hx)]
      rfl
  · rw [begin_of_not_special hx, begin_of_not_special (x := x.onLine n) hx, hx']
    cases Kind.ofChar? x.char with
    | some kind => rfl
    | none =>
      dsimp only
      split
      case isTrue => rfl
      case isFalse => split <;> rfl

theorem inTemplate_onLine (text : List Located) :
    (s.onLine n before).inTemplate (text.map (·.onLine n)) (x.onLine n) =
      (s.inTemplate text x).onLine n before := by
  have hx' : (x.onLine n).char = x.char := rfl
  have h := s.interpolates_inTemplate text x
  generalize s.inTemplate text x = s' at h
  cases h with
  | brace hx =>
    rw [inTemplate_brace (hx'.trans hx)]
    rfl
  | slot hx =>
    rw [inTemplate_slot (hx'.trans hx), literal_onLine]
    rfl
  | close hx =>
    rw [inTemplate_close (hx'.trans hx), literal_onLine]
    rfl
  | stop hx =>
    rw [inTemplate_newline (hx'.trans hx)]
    rfl
  | plain hx =>
    rw [inTemplate_plain (hx'.symm ▸ hx)]
    rfl

theorem step_onLine : (s.onLine n before).step (x.onLine n) = (s.step x).onLine n before := by
  obtain ⟨mode, tokens, problems⟩ := s
  cases mode with
  | ground => exact begin_onLine n before _ x
  | plus start =>
    show (if x.char = '+' then _ else _) = Scan.onLine (if x.char = '+' then _ else _) n before
    split
    case isTrue => rfl
    case isFalse => exact begin_onLine n before (emit _ _ _ start) x
  | semicolon start =>
    show (if x.char = ';' then _ else _) = Scan.onLine (if x.char = ';' then _ else _) n before
    split
    case isTrue => rfl
    case isFalse =>
      exact begin_onLine n before (unknown ⟨.semicolon start, tokens, problems⟩ ⟨';', start⟩) x
  | comment =>
    show (if x.char = '\n' then _ else _) = Scan.onLine (if x.char = '\n' then _ else _) n before
    split <;> rfl
  | string start text =>
    show (if x.char = '"' then _ else if x.char = '\n' then _ else _) =
      Scan.onLine (if x.char = '"' then _ else if x.char = '\n' then _ else _) n before
    split
    case isTrue => rfl
    case isFalse => split <;> rfl
  | word start text =>
    show (if Text.isWord x.char then _ else _) =
      Scan.onLine (if Text.isWord x.char then _ else _) n before
    split
    case isTrue => rfl
    case isFalse => exact begin_onLine n before (word _ start text) x
  | number start text =>
    show (if isNumeric x.char then _ else _) =
      Scan.onLine (if isNumeric x.char then _ else _) n before
    split
    case isTrue => rfl
    case isFalse => exact begin_onLine n before (emit _ _ _ start) x
  | template text => exact inTemplate_onLine n before _ x text
  | slot start text =>
    show (if Text.isWord x.char then _ else _) =
      Scan.onLine (if Text.isWord x.char then _ else _) n before
    split
    case isTrue => rfl
    case isFalse => exact inTemplate_onLine n before (word _ start text) x []
  | stopped place => rfl

/-- The scan of a line is the part of the scan of the source that reads the line. -/
theorem run_onLine (xs : List Located) :
    (s.onLine n before).run (xs.map (·.onLine n)) = (s.run xs).onLine n before := by
  induction xs generalizing s with
  | nil => rfl
  | cons x xs ih => rw [List.map_cons, run_cons, run_cons, step_onLine, ih]

end Scan

end Splice
