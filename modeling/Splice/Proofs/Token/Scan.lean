import Splice.Token.Scan

/-!
# Scanning single tokens

What a scan does on the characters of one token. A string or a bracket is complete with its last
character (`run_string`, `step_punctuation`); a word or a number is complete when a delimiter
follows (`run_word`, `run_number`), and `Settles` says that the scan has reached that point.
-/

namespace Splice.Scan

open Text

def add (s : Scan) (ts : List Token) : Scan := { s with tokens := ts.reverse ++ s.tokens }

theorem add_add (s : Scan) (ts us : List Token) : (s.add ts).add us = s.add (ts ++ us) := by
  simp [add]

theorem into_ground {s : Scan} (h : s.mode = .ground) : s.into .ground = s := by
  cases s
  exact congrArg (fun m => Scan.mk m _ _) h.symm

theorem emit_into_ground {s : Scan} (h : s.mode = .ground) (kind : Kind) (text : List Char)
    (start : Location) : (s.emit kind text start).into .ground =
      s.add [⟨kind, String.ofList text, start.offset, start.line⟩] := by
  cases s
  exact congrArg (fun m => Scan.mk m _ _) h.symm

/-! ## Delimiters -/

/-- A character that neither goes on with a word or a number nor begins one. -/
def isDelimiter (c : Char) : Bool := [' ', ']', ')', '\n'].contains c

theorem isDelimiter_cases {c : Char} (h : isDelimiter c = true) :
    c = ' ' ∨ c = ']' ∨ c = ')' ∨ c = '\n' := by
  simpa [isDelimiter] using h

theorem isWord_of_isDelimiter {c : Char} (h : isDelimiter c = true) : isWord c = false := by
  rcases isDelimiter_cases h with rfl | rfl | rfl | rfl <;> decide

theorem isNumeric_of_isDelimiter {c : Char} (h : isDelimiter c = true) : isNumeric c = false := by
  rcases isDelimiter_cases h with rfl | rfl | rfl | rfl <;> decide

/-- A delimiter takes a scan where it takes another one that is between tokens. -/
def Settles (s s' : Scan) : Prop :=
  s'.mode = .ground ∧ ∀ x : Located, isDelimiter x.char = true → s.step x = s'.begin x

variable {s s' : Scan} {x : Located}

theorem step_ground (h : s.mode = .ground) (x : Located) : s.step x = s.begin x := by
  unfold step
  rw [h]

/-- What begins after a token does not depend on the mode that the token was in. -/
theorem begin_emit_into (s : Scan) (m : Mode) (kind : Kind) (text : List Char) (start : Location)
    (x : Located) : ((s.into m).emit kind text start).begin x =
      (s.add [⟨kind, String.ofList text, start.offset, start.line⟩]).begin x := rfl

theorem settles_self (h : s.mode = .ground) : s.Settles s := ⟨h, fun x _ => step_ground h x⟩

theorem Settles.step_space (h : s.Settles s') (hx : x.char = ' ') : s.step x = s' := by
  rw [h.2 x (by rw [hx]; rfl), begin, hx]
  exact into_ground h.1

theorem Settles.step_newline (h : s.Settles s') (hx : x.char = '\n') : s.step x = s' := by
  rw [h.2 x (by rw [hx]; rfl), begin, hx]
  exact into_ground h.1

/-! ## The first character of a token -/

/-- The characters that a token does not begin with, or that begin a longer one. -/
def special : List Char := [' ', '\t', '\r', '\n', '+', ';', '"', '\'']

theorem begin_of_not_special (hx : x.char ∉ special) :
    s.begin x = match Kind.ofChar? x.char with
      | some kind => (s.emit kind [x.char] x.place).into .ground
      | none =>
        if isLetter x.char then s.into (.word x.place [x.char])
        else if x.char.isDigit then s.into (.number x.place [x.char])
        else (s.unknown x).into .ground := by
  unfold begin
  split
  case h_9 => rfl
  all_goals
    rename_i hc
    rw [hc] at hx
    exact absurd hx (by decide)

theorem not_mem_special {p : Char → Bool} (h : special.all (!p ·) = true) {c : Char}
    (hc : p c = true) : c ∉ special := by
  intro hmem
  have := List.all_eq_true.mp h c hmem
  rw [hc] at this
  exact Bool.noConfusion this

theorem ofChar?_of_isLetter {c : Char} (h : isLetter c = true) : Kind.ofChar? c = none := by
  unfold Kind.ofChar?
  split
  case h_14 => rfl
  all_goals exact absurd h (by decide)

theorem ofChar?_of_isDigit {c : Char} (h : c.isDigit = true) : Kind.ofChar? c = none := by
  unfold Kind.ofChar?
  split
  case h_14 => rfl
  all_goals exact absurd h (by decide)

theorem isWord_of_isLetter {c : Char} (h : isLetter c = true) : isWord c = true := by
  rw [isWord, h]
  rfl

theorem isNumeric_of_isDigit {c : Char} (h : c.isDigit = true) : isNumeric c = true := by
  rw [isNumeric, h]
  rfl

theorem isLetter_of_isDigit {c : Char} (h : c.isDigit = true) : isLetter c = false := by
  have hlt : ¬0x41 ≤ c.toNat := by
    simp only [Char.isDigit, Bool.and_eq_true, decide_eq_true_eq] at h
    have := UInt32.le_iff_toNat_le.mp h.2
    have : c.toNat ≤ 0x39 := this
    omega
  unfold isLetter alphabetic
  rw [inRanges_cons, decide_eq_false hlt, Bool.false_and]

theorem begin_letter (h : isLetter x.char = true) :
    s.begin x = s.into (.word x.place [x.char]) := by
  rw [begin_of_not_special (not_mem_special (by decide) h), ofChar?_of_isLetter h]
  exact if_pos h

theorem begin_digit (h : x.char.isDigit = true) :
    s.begin x = s.into (.number x.place [x.char]) := by
  rw [begin_of_not_special (not_mem_special (by decide) h), ofChar?_of_isDigit h]
  dsimp only
  rw [isLetter_of_isDigit h, if_neg Bool.false_ne_true, if_pos h]

theorem begin_mark {kind : Kind} (hx : Kind.ofChar? x.char = some kind) :
    s.begin x = (s.emit kind [x.char] x.place).into .ground := by
  have hspecial : x.char ∉ special :=
    not_mem_special (p := fun c => (Kind.ofChar? c).isSome) (by decide) (by rw [hx]; rfl)
  rw [begin_of_not_special hspecial, hx]

theorem begin_punctuation {kind : Kind} (hs : s.mode = .ground)
    (hx : Kind.ofChar? x.char = some kind) :
    ∃ t : Token, t.kind = kind ∧ s.begin x = s.add [t] :=
  ⟨⟨kind, _, _, _⟩, rfl, (begin_mark hx).trans (emit_into_ground hs _ _ _)⟩

/-- Punctuation that is a delimiter also ends the token before it. -/
theorem Settles.step_punctuation {kind : Kind} (h : s.Settles s') (hx : isDelimiter x.char = true)
    (hkind : Kind.ofChar? x.char = some kind) :
    ∃ t : Token, t.kind = kind ∧ s.step x = s'.add [t] := by
  rw [h.2 x hx]
  exact begin_punctuation h.1 hkind

theorem step_plus_plus (hs : s.mode = .ground) {y : Located} (hx : x.char = '+')
    (hy : y.char = '+') : ∃ t : Token, t.kind = .merge ∧ (s.step x).step y = s.add [t] := by
  have hplus : s.step x = s.into (.plus x.place) := by
    rw [step_ground hs, begin, hx]
    rfl
  refine ⟨⟨.merge, String.ofList ['+', '+'], x.place.offset, x.place.line⟩, rfl, ?_⟩
  rw [hplus]
  show (if y.char = '+' then _ else _) = _
  rw [if_pos hy]
  exact emit_into_ground hs _ _ _

/-! ## Longer tokens -/

/-- Characters that go on with a token are collected in the mode of the token. -/
theorem run_into {mode : List Char → Mode} {p : Char → Prop}
    (hstep : ∀ {text : List Char} {x : Located}, p x.char →
      (s.into (mode text)).step x = s.into (mode (x.char :: text)))
    {xs : List Located} (h : ∀ c ∈ xs.map Located.char, p c) (text : List Char) :
    (s.into (mode text)).run xs = s.into (mode ((xs.map Located.char).reverse ++ text)) := by
  induction xs generalizing text with
  | nil => rfl
  | cons x xs ih =>
    obtain ⟨hx, hxs⟩ := List.forall_mem_cons.mp h
    rw [run_cons, hstep hx, ih hxs]
    simp

theorem step_string {start : Location} {text : List Char} (h : x.char ≠ '"' ∧ x.char ≠ '\n') :
    (s.into (.string start text)).step x = s.into (.string start (x.char :: text)) := by
  show (if x.char = '"' then _ else _) = _
  rw [if_neg h.1, if_neg h.2]
  rfl

variable {xs : List Located}

theorem run_string (hs : s.mode = .ground) {text : List Char}
    (htext : ∀ c ∈ text, c ≠ '"' ∧ c ≠ '\n')
    (hxs : xs.map Located.char = '"' :: (text ++ ['"'])) :
    ∃ t : Token, t.kind = .string ∧ t.raw = String.ofList text ∧ s.run xs = s.add [t] := by
  obtain ⟨x, rest, rfl, hx, hrest⟩ := List.map_eq_cons_iff.mp hxs
  obtain ⟨body, last, rfl, rfl, hlast⟩ := List.map_eq_append_iff.mp hrest
  obtain ⟨y, rfl, hy⟩ := List.map_eq_singleton_iff.mp hlast
  have hopen : s.step x = s.into (.string x.place []) := by
    rw [step_ground hs, begin, hx]
    rfl
  refine ⟨⟨.string, String.ofList (body.map Located.char), x.place.offset, x.place.line⟩,
    rfl, rfl, ?_⟩
  rw [run_cons, hopen, run_append, run_into step_string htext, run_cons, run_nil, List.append_nil]
  show (if y.char = '"' then _ else _) = _
  rw [if_pos hy, List.reverse_reverse]
  exact emit_into_ground hs _ _ _

/-- A token that goes on while a test holds of its characters ends before a character of which it
does not hold. -/
theorem step_run_while (kind : List Char → Kind) {mode : List Char → Mode} {p : Char → Bool}
    (hmode : ∀ {text : List Char} {y : Located}, (s.into (mode text)).step y =
      if p y.char then s.into (mode (y.char :: text))
      else ((s.into (mode text)).emit (kind text.reverse) text.reverse x.place).begin y)
    (hs : s.mode = .ground) (hbegin : s.begin x = s.into (mode [x.char]))
    (hxs : ∀ c ∈ xs.map Located.char, p c = true) {y : Located} (hy : p y.char = false) :
    (s.run (x :: xs)).step y = (s.add [⟨kind ((x :: xs).map Located.char),
      String.ofList ((x :: xs).map Located.char), x.place.offset, x.place.line⟩]).begin y := by
  have hrun : s.run (x :: xs) = s.into (mode ((xs.map Located.char).reverse ++ [x.char])) := by
    rw [run_cons, step_ground hs, hbegin]
    refine run_into ?_ hxs _
    intro text y hy
    rw [hmode, if_pos hy]
  -- the token is emitted from its own mode, where the other scan is already between tokens
  rw [hrun, hmode, hy, if_neg Bool.false_ne_true]
  simp only [List.reverse_append, List.reverse_reverse, List.reverse_singleton,
    List.singleton_append]
  exact begin_emit_into _ _ _ _ _ y

/-- Such a token is complete before a delimiter, of which the test does not hold. -/
theorem run_while (kind : List Char → Kind) {mode : List Char → Mode} {p : Char → Bool}
    (hmode : ∀ {text : List Char} {y : Located}, (s.into (mode text)).step y =
      if p y.char then s.into (mode (y.char :: text))
      else ((s.into (mode text)).emit (kind text.reverse) text.reverse x.place).begin y)
    (hdelimiter : ∀ {c : Char}, isDelimiter c = true → p c = false) (hs : s.mode = .ground)
    (hbegin : s.begin x = s.into (mode [x.char])) (hxs : ∀ c ∈ xs.map Located.char, p c = true) :
    (s.run (x :: xs)).Settles (s.add [⟨kind ((x :: xs).map Located.char),
      String.ofList ((x :: xs).map Located.char), x.place.offset, x.place.line⟩]) :=
  ⟨hs, fun _ hy => step_run_while kind hmode hs hbegin hxs (hdelimiter hy)⟩

theorem run_word (hs : s.mode = .ground) {c : Char} {cs : List Char} (hc : isLetter c = true)
    (hcs : ∀ c' ∈ cs, isWord c' = true) (hxs : xs.map Located.char = c :: cs) :
    ∃ t : Token, t.kind = .ofWord t.raw ∧ t.raw = String.ofList (c :: cs) ∧
      (s.run xs).Settles (s.add [t]) := by
  obtain ⟨x, rest, rfl, rfl, rfl⟩ := List.map_eq_cons_iff.mp hxs
  exact ⟨_, rfl, rfl, run_while (fun cs => .ofWord (String.ofList cs)) rfl isWord_of_isDelimiter hs
    (begin_letter hc) hcs⟩

theorem run_number (hs : s.mode = .ground) {c : Char} {cs : List Char} (hc : c.isDigit = true)
    (hcs : ∀ c' ∈ cs, isNumeric c' = true) (hxs : xs.map Located.char = c :: cs) :
    ∃ t : Token, t.kind = .number ∧ t.raw = String.ofList (c :: cs) ∧
      (s.run xs).Settles (s.add [t]) := by
  obtain ⟨x, rest, rfl, rfl, rfl⟩ := List.map_eq_cons_iff.mp hxs
  exact ⟨_, rfl, rfl, run_while (fun _ => .number) rfl isNumeric_of_isDelimiter hs
    (begin_digit hc) hcs⟩

end Splice.Scan
