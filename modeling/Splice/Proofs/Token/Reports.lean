import Splice.Proofs.Scanning
import Splice.Proofs.Source

/-!
# Characters and their problems

Which problems are in some characters (`Reports`): one for a character that begins no token, one for
the line feed that leaves a template open, and one for a quote after which the line ends. A scan
finds the problems of the characters it is done with (`Reported.run`). They come in the order of
their places (`Reports.pairwise`), and each is where it says (`Reports.exists_points`).
-/

namespace Splice

open Text Scan

namespace Located

/-- The problem that a string is open after a quote, with the rest of its line as its text. -/
def openString (x : Located) (body : List Located) : Problem :=
  ⟨.openString, x.place.line, x.place.column + 1, String.ofList (body.map Located.char)⟩

/-- The problem that a template is open at a line feed. -/
def openTemplate (x : Located) : Problem := ⟨.openTemplate, x.place.line, x.place.column, ""⟩

end Located

/-- Characters, and the problems in them, the latest first. -/
inductive Reports : List Located → List Problem → Prop where
  | nil : Reports [] []
  | skip {xs ps} (x) : Reports xs ps → Reports (xs ++ [x]) ps
  | unknown {xs ps x} : x.char ≠ '\n' → Reports xs ps → Reports (xs ++ [x]) (x.unknown :: ps)
  | openString {xs ps x body y} : x.char = '"' → (∀ z ∈ body, z.char ≠ '\n') → y.char = '\n' →
      Reports xs ps → Reports (xs ++ x :: (body ++ [y])) (x.openString body :: ps)
  | openTemplate {xs ps x} : x.char = '\n' → Reports xs ps →
      Reports (xs ++ [x]) (x.openTemplate :: ps)

namespace Reports

variable {xs ys : List Located} {ps qs : List Problem}

theorem skipAll (h : Reports xs ps) (ys : List Located) : Reports (xs ++ ys) ps := by
  induction ys generalizing xs with
  | nil => rwa [List.append_nil]
  | cons y ys ih =>
    rw [List.append_cons]
    exact ih (h.skip y)

theorem append (h : Reports xs ps) (h' : Reports ys qs) : Reports (xs ++ ys) (qs ++ ps) := by
  induction h' with
  | nil => rwa [List.append_nil]
  | skip x _ ih =>
    rw [← List.append_assoc]
    exact ih.skip x
  | unknown hx _ ih =>
    rw [← List.append_assoc]
    exact ih.unknown hx
  | openString hx hbody hy _ ih =>
    rw [← List.append_assoc]
    exact ih.openString hx hbody hy
  | openTemplate hx _ ih =>
    rw [← List.append_assoc]
    exact ih.openTemplate hx

end Reports

/-! ## What a scan is done with -/

/-- The characters that a scan may still report: a semicolon, or a string that has begun. -/
def Mode.Holds : Mode → List Located → Prop
  | semicolon start, xs => xs = [⟨';', start⟩]
  | string start text, xs => ∃ body, xs = ⟨'"', start⟩ :: body ∧
      body.map Located.char = text.reverse ∧ ∀ z ∈ body, z.char ≠ '\n'
  | _, xs => xs = []

namespace Scan

variable {s : Scan} {x : Located} {xs : List Located}

/-- A scan that has read some characters has the problems of those it is done with. -/
def Reported (s : Scan) (xs : List Located) : Prop :=
  ∃ done held, xs = done ++ held ∧ s.mode.Holds held ∧ Reports done s.problems

theorem reported_into {mode : Mode} (hmode : mode.Holds []) (h : Reports xs s.problems) :
    (s.into mode).Reported xs :=
  ⟨xs, [], (List.append_nil xs).symm, hmode, h⟩

theorem Reported.begin (h : Reports xs s.problems) (x : Located) :
    (s.begin x).Reported (xs ++ [x]) := by
  have hbegins := s.begins_begin x
  generalize s.begin x = s' at hbegins
  cases hbegins with
  | blank | plus | template | mark | word | number => exact reported_into rfl (h.skip x)
  | semicolon hx =>
    have hheld : [x] = [⟨';', x.place⟩] := by rw [← hx]
    exact ⟨xs, [x], rfl, hheld, h⟩
  | string hx =>
    have hheld : [x] = [⟨'"', x.place⟩] := by rw [← hx]
    exact ⟨xs, [x], rfl, ⟨[], hheld, rfl, List.forall_mem_nil _⟩, h⟩
  | unknown hspecial =>
    have hline : x.char ≠ '\n' := by
      intro hline
      rw [hline] at hspecial
      exact hspecial (by decide)
    exact reported_into rfl (h.unknown hline)

theorem Reported.inTemplate (h : Reports xs s.problems) (text : List Located) (x : Located) :
    (s.inTemplate text x).Reported (xs ++ [x]) := by
  have hliteral : Reports xs (s.literal text).problems := by rwa [problems_literal]
  have hinterpolates := s.interpolates_inTemplate text x
  generalize s.inTemplate text x = s' at hinterpolates
  cases hinterpolates with
  | brace | plain => exact reported_into rfl (h.skip x)
  | slot | close => exact reported_into rfl (hliteral.skip x)
  | stop hx => exact reported_into rfl (h.openTemplate hx)

/-- One more character: it goes on with what is held, or decides about it. -/
theorem Reported.step (hs : ¬s.IsStopped) (h : s.Reported xs) (x : Located) :
    (s.step x).Reported (xs ++ [x]) := by
  obtain ⟨done, held, rfl, hheld, hdone⟩ := h
  have hsteps := s.steps_step x
  generalize hmode : s.mode = mode at hsteps hheld
  generalize s.step x = s' at hsteps
  cases hsteps with
  | ground =>
    obtain rfl : held = [] := hheld
    rw [List.append_nil]
    exact .begin hdone x
  | plus =>
    obtain rfl : held = [] := hheld
    rw [List.append_nil]
    exact .begin (s := s.emit _ _ _) hdone x
  | @semicolon start hx =>
    obtain rfl : held = [⟨';', start⟩] := hheld
    have hline : (⟨';', start⟩ : Located).char ≠ '\n' := show ';' ≠ '\n' by decide
    exact .begin (s := s.unknown _) (hdone.unknown hline) x
  | openComment | merge | closeComment | comment | word | number | slot =>
    exact reported_into rfl ((hdone.skipAll held).skip x)
  | closeString => exact reported_into rfl ((hdone.skipAll held).skip x)
  | @breakString start text hx =>
    obtain ⟨body, rfl, htext, hbody⟩ := hheld
    rw [List.append_assoc, List.cons_append]
    refine reported_into rfl ?_
    have hopen := hdone.openString (x := ⟨'"', start⟩) rfl hbody hx
    rwa [Located.openString, htext] at hopen
  | string hquote hline =>
    obtain ⟨body, rfl, htext, hbody⟩ := hheld
    refine ⟨done, _, List.append_assoc _ _ _, ⟨body ++ [x], rfl, ?_, ?_⟩, hdone⟩
    · rw [List.map_append, htext, List.reverse_cons]
      rfl
    · exact List.forall_mem_append.mpr ⟨hbody, List.forall_mem_singleton.mpr hline⟩
  | closeWord | closeNumber =>
    obtain rfl : held = [] := hheld
    rw [List.append_nil]
    exact .begin (s := s.emit _ _ _) hdone x
  | template =>
    obtain rfl : held = [] := hheld
    rw [List.append_nil]
    exact .inTemplate hdone _ x
  | closeSlot =>
    obtain rfl : held = [] := hheld
    rw [List.append_nil]
    exact .inTemplate (s := s.word _ _) hdone _ x
  | stopped => exact absurd ⟨_, hmode⟩ hs

/-- A scan that goes on to the end has the problems of the characters it is done with; one that
stops has those up to the line feed that it stops at. -/
theorem Reported.run (hs : ¬s.IsStopped) {before : List Located} (h : s.Reported before)
    (xs : List Located) :
    ¬(s.run xs).IsStopped ∧ (s.run xs).Reported (before ++ xs) ∨
      ∃ ys y zs, xs = ys ++ y :: zs ∧ y.char = '\n' ∧ (s.run xs).mode = .stopped y.place ∧
        Reports (before ++ (ys ++ [y])) (s.run xs).problems := by
  induction xs generalizing s before with
  | nil => exact .inl ⟨hs, by rwa [List.append_nil]⟩
  | cons x xs ih =>
    have hstep := h.step hs x
    rcases step_stops_iff hs x with ⟨hgoes, -⟩ | ⟨hline, hmode, -⟩
    · rw [run_cons, List.append_cons]
      rcases ih hgoes hstep with hrun | ⟨ys, y, zs, rfl, hy, hmode, hreports⟩
      · exact .inl hrun
      · refine .inr ⟨x :: ys, y, zs, rfl, hy, hmode, ?_⟩
        simpa using hreports
    · refine .inr ⟨[], x, xs, rfl, hline, ?_, ?_⟩
      · rw [run_cons, run_of_isStopped ⟨_, hmode⟩, hmode]
      · obtain ⟨done, held, hsplit, hheld, hdone⟩ := hstep
        rw [hmode] at hheld
        obtain rfl : held = [] := hheld
        rw [run_cons, run_of_isStopped ⟨_, hmode⟩, List.nil_append, hsplit, List.append_nil]
        exact hdone

end Scan

/-! ## Order -/

/-- One problem is before another: on an earlier line, or before it on its line. -/
def Problem.Precedes (p q : Problem) : Prop :=
  p.line < q.line ∨ p.line = q.line ∧ p.column < q.column

namespace Reports

variable {xs : List Located} {ps : List Problem}

theorem exists_not_before (h : Reports xs ps)
    (hxs : xs.Pairwise fun x y => x.place.Precedes y.place) :
    ∀ p ∈ ps, ∃ x ∈ xs, p.line < x.place.line ∨
      p.line = x.place.line ∧ p.column ≤ x.place.column := by
  have hold {xs ys : List Located} {p : Problem} (h : ∃ x ∈ xs, p.line < x.place.line ∨
      p.line = x.place.line ∧ p.column ≤ x.place.column) : ∃ x ∈ xs ++ ys, p.line < x.place.line ∨
      p.line = x.place.line ∧ p.column ≤ x.place.column := by
    obtain ⟨x, hx, hplace⟩ := h
    exact ⟨x, List.mem_append_left ys hx, hplace⟩
  induction h with
  | nil => exact List.forall_mem_nil _
  | skip x _ ih =>
    intro p hp
    exact hold (ih (List.pairwise_append.mp hxs).1 p hp)
  | @unknown xs ps x _ _ ih | @openTemplate xs ps x _ _ ih =>
    refine List.forall_mem_cons.mpr ⟨⟨x, by simp, .inr ⟨rfl, Nat.le_refl _⟩⟩, ?_⟩
    intro p hp
    exact hold (ih (List.pairwise_append.mp hxs).1 p hp)
  | @openString xs ps x body y _ _ _ _ ih =>
    obtain ⟨hxs, hown, -⟩ := List.pairwise_append.mp hxs
    have hplace : x.place.Precedes y.place := (List.pairwise_cons.mp hown).1 y (by simp)
    refine List.forall_mem_cons.mpr ⟨⟨y, by simp, hplace⟩, ?_⟩
    intro p hp
    exact hold (ih hxs p hp)

theorem pairwise (h : Reports xs ps) (hxs : xs.Pairwise fun x y => x.place.Precedes y.place) :
    ps.Pairwise fun q p => p.Precedes q := by
  -- a new problem is not before its first character, and the earlier ones are
  have hlast {xs ys : List Located} {ps : List Problem} {x : Located} {q : Problem}
      (h : Reports xs ps) (hxs : (xs ++ x :: ys).Pairwise fun x y => x.place.Precedes y.place)
      (hline : q.line = x.place.line) (hcolumn : x.place.column ≤ q.column) :
      ∀ p ∈ ps, p.Precedes q := by
    obtain ⟨hxs, -, hacross⟩ := List.pairwise_append.mp hxs
    intro p hp
    obtain ⟨z, hz, hplace⟩ := h.exists_not_before hxs p hp
    have hbefore := hacross z hz x List.mem_cons_self
    unfold Location.Precedes at hbefore
    unfold Problem.Precedes
    omega
  induction h with
  | nil => exact .nil
  | skip x _ ih => exact ih (List.pairwise_append.mp hxs).1
  | unknown _ h ih | openTemplate _ h ih =>
    exact .cons (hlast h hxs rfl (Nat.le_refl _)) (ih (List.pairwise_append.mp hxs).1)
  | openString _ _ _ h ih =>
    exact .cons (hlast h hxs rfl (Nat.le_succ _)) (ih (List.pairwise_append.mp hxs).1)

end Reports

/-! ## Places -/

/-- Where on a line a problem is: at its character, after its quote with the rest of the line as its
text, or at the end of the line. -/
inductive Problem.Points : List Char → Problem → Prop where
  | unknown (before : List Char) (c : Char) (rest : List Char) (index : Nat) :
      Points (before ++ c :: rest)
        ⟨.unknownCharacter, index, before.length, String.ofList [c]⟩
  | openString (before body : List Char) (index : Nat) :
      Points (before ++ '"' :: body)
        ⟨.openString, index, before.length + 1, String.ofList body⟩
  | openTemplate (line : List Char) (index : Nat) :
      Points line ⟨.openTemplate, index, line.length, ""⟩

theorem Problem.Points.text_prefix {line : List Char} {p : Problem} (h : Points line p) :
    p.text.toList <+: line.drop p.column := by
  cases h with
  | unknown before c rest => simp
  | openString before body => simp
  | openTemplate line => simp

/-- The line of a character: what is before it, as many characters as its column says, and the
characters from it on. -/
theorem Source.exists_line {s : Source} {before after : List Located} {x : Located}
    (h : s.terminated = before ++ x :: after) :
    ∃ start, start.length = x.place.column ∧ (lines s.text)[x.place.line]? =
      some (start ++ ((x :: after).map Located.char).takeWhile (· != '\n')) := by
  have hlocate : s.terminated = locate .origin (s.pieces ++ [.encoded '\n']) := by
    rw [locate_append]
    rfl
  obtain ⟨qs, p, rs, hpieces, rfl, rfl, rfl⟩ := exists_pieces_of_locate_eq (hlocate.symm.trans h)
  -- the line feed at the end is no character of the text, and it ends no line before it
  obtain ⟨rest, hrest, htext⟩ : ∃ rest, (p :: rs).map Piece.char = rest ++ ['\n'] ∧
      s.text = qs.map Piece.char ++ rest := by
    rcases List.append_eq_append_iff.mp hpieces with ⟨between, rfl, hlast⟩ | ⟨between, htext, hlast⟩
    · cases between with
      | nil =>
        rw [List.nil_append] at hlast
        rw [← hlast]
        exact ⟨[], rfl, by rw [List.append_nil, List.append_nil]; rfl⟩
      | cons => simp at hlast
    · rw [hlast, Source.text, htext, List.map_append, List.map_append]
      exact ⟨between.map Piece.char, rfl, rfl⟩
  have hchars : ((⟨p.char, Location.origin.read qs⟩ :: locate ((Location.origin.read qs).after p)
      rs : List Located).map Located.char) = rest ++ ['\n'] := by
    rw [← hrest, List.map_cons, map_char_locate, List.map_cons]
  have hwhile : (rest ++ ['\n']).takeWhile (· != '\n') = rest.takeWhile (· != '\n') := by
    rw [List.takeWhile_append]
    split
    case isTrue hall =>
      rw [List.takeWhile_cons_of_neg (by decide), List.append_nil]
      exact ((List.takeWhile_sublist _).eq_of_length hall).symm
    case isFalse => rfl
  refine ⟨lastLine (qs.map Piece.char), (Location.column_read qs).symm, ?_⟩
  have hline : (Location.origin.read qs).line = (qs.map Piece.char).count '\n' := by
    rw [Location.line_read]
    exact Nat.zero_add _
  rw [hchars, hwhile, hline, htext]
  exact getElem?_lines _ _

/-- A problem in the characters of a source is on the line that it says, and says what is there. -/
theorem Reports.exists_points {s : Source} {xs rest : List Located} {ps : List Problem}
    (h : Reports xs ps) (hs : s.terminated = xs ++ rest) :
    ∀ p ∈ ps, ∃ line, (lines s.text)[p.line]? = some line ∧ p.Points line := by
  induction h generalizing rest with
  | nil => exact List.forall_mem_nil _
  | skip x _ ih => exact ih (hs.trans (List.append_assoc _ _ _))
  | @unknown xs ps x hx _ ih =>
    have hcut := hs.trans (List.append_assoc _ _ _)
    obtain ⟨start, hstart, hline⟩ := Source.exists_line hcut
    rw [List.map_cons, List.takeWhile_cons_of_pos (p := (· != '\n')) (bne_iff_ne.mpr hx)] at hline
    refine List.forall_mem_cons.mpr ⟨⟨_, hline, ?_⟩, ih hcut⟩
    rw [Located.unknown, ← hstart]
    exact .unknown start x.char _ _
  | @openString xs ps x body y hx hbody hy _ ih =>
    have hcut : s.terminated = xs ++ x :: (body ++ y :: rest) := by
      rw [hs]
      simp
    obtain ⟨start, hstart, hline⟩ := Source.exists_line hcut
    have htext : ((x :: (body ++ y :: rest)).map Located.char).takeWhile (· != '\n') =
        '"' :: body.map Located.char := by
      have hne : ∀ c ∈ '"' :: body.map Located.char, (c != '\n') = true := by
        simpa using hbody
      rw [List.map_cons, List.map_append, hx, ← List.cons_append,
        List.takeWhile_append_of_pos hne, List.map_cons, hy,
        List.takeWhile_cons_of_neg (by decide), List.append_nil]
    rw [htext] at hline
    refine List.forall_mem_cons.mpr ⟨⟨_, hline, ?_⟩, ih hcut⟩
    rw [Located.openString, ← hstart]
    exact .openString start _ _
  | @openTemplate xs ps x hx _ ih =>
    have hcut := hs.trans (List.append_assoc _ _ _)
    obtain ⟨start, hstart, hline⟩ := Source.exists_line hcut
    rw [List.map_cons, hx, List.takeWhile_cons_of_neg (by decide), List.append_nil] at hline
    refine List.forall_mem_cons.mpr ⟨⟨_, hline, ?_⟩, ih hcut⟩
    rw [Located.openTemplate, ← hstart]
    exact .openTemplate start _

end Splice
