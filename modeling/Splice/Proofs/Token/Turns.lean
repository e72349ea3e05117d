import Mathlib.Data.List.TakeWhile
import Splice.Proofs.Token.Lexeme

/-!
# Turns of a scan

A scan reads one character at a time. It comes to what a loop comes to whose turns each read a
blank, a comment or a token, with an inner loop over the characters of a template
(`ofChars_eq_ofLoop`). A turn reads at least one character, or it ends the pass (`advances_turn`,
`advances_turnInTemplate`); so the loops end, with no characters ahead or with the line feed that
leaves a template open (`loop_cases`).
-/

namespace Splice

open Text Scan

/-! ## Cursors -/

/-- A scan before the characters that it has not read. -/
structure Cursor where
  scan : Scan
  ahead : List Located

/-- What a turn of a loop comes to: the loop goes on, with some characters ahead, or it is left. -/
inductive Turn (State Result : Type) where
  | again (state : State) (ahead : List Located)
  | leave (result : Result)

/-- A turn of the loop over a pass. The pass is over when the loop is left. -/
abbrev PassTurn := Turn Scan Cursor

/-- A turn of the loop over a template, after some literal text. When the loop is left, the turn of
the loop over the pass is complete. -/
abbrev TemplateTurn := Turn (Scan × List Located) PassTurn

/-- The place of the first of some characters, or the end if there are none. -/
def placeOf (stop : Location) (xs : List Located) : Location :=
  (xs.head?.map Located.place).getD stop

def peek (xs : List Located) : Option Char := xs.head?.map Located.char

/-- The characters up to the first one of which a test does not hold. -/
def front (p : Char → Bool) (xs : List Located) : List Char :=
  (xs.takeWhile (p ·.char)).map Located.char

/-- The characters from the first one on of which a test does not hold. -/
def back (p : Char → Bool) (xs : List Located) : List Located := xs.dropWhile (p ·.char)

theorem back_isSuffix (p : Char → Bool) (xs : List Located) : back p xs <:+ xs :=
  List.dropWhile_suffix _

theorem back_cons {p : Char → Bool} {x : Located} (h : p x.char = true) (xs : List Located) :
    back p (x :: xs) = back p xs := List.dropWhile_cons_of_pos h

theorem front_cons {p : Char → Bool} {x : Located} (h : p x.char = true) (xs : List Located) :
    front p (x :: xs) = x.char :: front p xs := by
  rw [front, List.takeWhile_cons_of_pos (p := fun z : Located => p z.char) h]
  rfl

theorem exists_front (p : Char → Bool) (xs : List Located) : ∃ own, xs = own ++ back p xs ∧
    own.map Located.char = front p xs ∧ ∀ z ∈ own, p z.char = true :=
  ⟨xs.takeWhile (p ·.char), List.takeWhile_append_dropWhile.symm, rfl,
    fun _ hz => List.mem_takeWhile_imp (p := fun z : Located => p z.char) hz⟩

theorem exists_peek (xs : List Located) (stop : Location) :
    ∃ y ys, xs ++ [⟨'\n', stop⟩] = y :: ys ∧ (peek xs = some y.char ∨ y.char = '\n') := by
  cases xs with
  | nil => exact ⟨_, _, rfl, .inr rfl⟩
  | cons x xs => exact ⟨_, _, rfl, .inl rfl⟩

theorem exists_cons_of_peek {c : Char} {xs : List Located} (h : peek xs = some c) :
    ∃ y, xs = y :: xs.tail ∧ y.char = c := by
  cases xs with
  | nil => cases h
  | cons y xs => exact ⟨y, rfl, Option.some.inj h⟩

theorem eq_false_of_peek_back {p : Char → Bool} {xs : List Located} {c : Char}
    (h : peek (back p xs) = some c) : p c = false := by
  have hfirst := List.head?_dropWhile_not (fun z : Located => p z.char) xs
  obtain ⟨y, hy, rfl⟩ := Option.map_eq_some_iff.mp h
  rw [back] at hy
  rwa [hy] at hfirst

/-- The character at which a test ends, or the line feed at the end. -/
theorem exists_back {p : Char → Bool} (hp : p '\n' = false) (xs : List Located)
    (stop : Location) : ∃ y ys, back p xs ++ [⟨'\n', stop⟩] = y :: ys ∧ p y.char = false := by
  obtain ⟨y, ys, hcons, hpeek | hline⟩ := exists_peek (back p xs) stop
  · exact ⟨y, ys, hcons, eq_false_of_peek_back hpeek⟩
  · exact ⟨y, ys, hcons, hline ▸ hp⟩

/-! ## Progress -/

/-- At least one of some characters has been read when others are ahead. -/
def Advances (xs ahead : List Located) : Prop := ∃ own, own ≠ [] ∧ xs = own ++ ahead

namespace Advances

variable {xs ys zs : List Located} {x : Located}

theorem of_isSuffix (h : ys <:+ xs) : Advances (x :: xs) ys := by
  obtain ⟨own, rfl⟩ := h
  exact ⟨x :: own, List.cons_ne_nil _ _, rfl⟩

theorem isSuffix (h : Advances xs ys) : ys <:+ xs := by
  obtain ⟨own, -, rfl⟩ := h
  exact List.suffix_append own ys

theorem trans (h : Advances xs ys) (h' : Advances ys zs) : Advances xs zs := by
  obtain ⟨own, hne, rfl⟩ := h
  obtain ⟨more, -, rfl⟩ := h'
  exact ⟨own ++ more, List.append_ne_nil_of_left_ne_nil hne _, (List.append_assoc _ _ _).symm⟩

theorem length_lt (h : Advances xs ys) : ys.length < xs.length := by
  obtain ⟨own, hne, rfl⟩ := h
  have hpos := List.length_pos_iff.mpr hne
  rw [List.length_append]
  omega

end Advances

/-- The scan with a template that is open at a place. -/
def Scan.breakOff (s : Scan) (place : Location) : Scan :=
  (s.report .openTemplate [] place.line place.column).into (.stopped place)

/-- The pass over some characters has ended in an open template, before a line feed or at the
end. -/
def Cursor.IsBrokenOff (stop : Location) (xs : List Located) (c : Cursor) : Prop :=
  (∃ s : Scan, c.scan = s.breakOff (placeOf stop c.ahead)) ∧ c.ahead <:+ xs ∧
    ∀ y ∈ c.ahead.head?, y.char = '\n'

/-- A turn has read a character, or has ended the pass. -/
def PassTurn.Advances (stop : Location) (xs : List Located) : PassTurn → Prop
  | .again _ ahead => Splice.Advances xs ahead
  | .leave c => c.IsBrokenOff stop xs

/-- A turn has read a character, or has ended the pass. -/
def TemplateTurn.Advances (stop : Location) (xs : List Located) : TemplateTurn → Prop
  | .again _ ahead => Splice.Advances xs ahead
  | .leave t => PassTurn.Advances stop xs t

theorem Cursor.IsBrokenOff.of_isSuffix {stop : Location} {xs ys : List Located} {c : Cursor}
    (h : c.IsBrokenOff stop ys) (hys : ys <:+ xs) : c.IsBrokenOff stop xs :=
  ⟨h.1, h.2.1.trans hys, h.2.2⟩

theorem PassTurn.Advances.of_advances {stop : Location} {t : PassTurn} {xs ys : List Located}
    (ht : PassTurn.Advances stop ys t) (h : Splice.Advances xs ys) :
    PassTurn.Advances stop xs t := by
  cases t with
  | again => exact h.trans ht
  | leave => exact ht.of_isSuffix h.isSuffix

/-! ## The loop over a template -/

namespace Scan

/-- One turn of the loop over a template. The word of a slot may be empty. -/
def turnInTemplate (stop : Location) (s : Scan) (text : List Located) :
    List Located → TemplateTurn
  | [] => .leave (.leave ⟨s.breakOff stop, []⟩)
  | x :: xs =>
    match x.char with
    | '}' => .again (s, text) xs
    | '{' => .again ((s.literal text).word x.place.next (front isWord xs).reverse, [])
        (back isWord xs)
    | '\'' => .leave (.again ((s.literal text).emit .template [] x.place.next) xs)
    | '\n' => .leave (.leave ⟨s.breakOff x.place, x :: xs⟩)
    | _ => .again (s, x :: text) xs

end Scan

theorem advances_turnInTemplate (stop : Location) (s : Scan) (text xs : List Located) :
    TemplateTurn.Advances stop xs (s.turnInTemplate stop text xs) := by
  cases xs with
  | nil => exact ⟨⟨s, rfl⟩, List.suffix_rfl, by simp⟩
  | cons x xs =>
    unfold turnInTemplate
    dsimp only
    split
    case h_2 => exact .of_isSuffix (back_isSuffix isWord xs)
    case h_4 hx => exact ⟨⟨s, rfl⟩, List.suffix_rfl, by simpa using hx⟩
    case h_1 | h_3 | h_5 => exact Advances.of_isSuffix List.suffix_rfl

theorem length_lt_of_turnInTemplate {stop : Location} {s : Scan} {text xs ahead : List Located}
    {state : Scan × List Located} (h : s.turnInTemplate stop text xs = .again state ahead) :
    ahead.length < xs.length := by
  have hadvances := advances_turnInTemplate stop s text xs
  rw [h] at hadvances
  exact hadvances.length_lt

/-- The loop over a template, after its opening quote. -/
def Scan.readTemplate (stop : Location) (s : Scan) (text xs : List Located) : PassTurn :=
  match _h : s.turnInTemplate stop text xs with
  | .again state ahead => readTemplate stop state.1 state.2 ahead
  | .leave t => t
termination_by xs.length
decreasing_by exact length_lt_of_turnInTemplate _h

theorem advances_readTemplate (stop : Location) (s : Scan) (text xs : List Located) :
    PassTurn.Advances stop xs (s.readTemplate stop text xs) := by
  fun_induction readTemplate stop s text xs with
  | case1 s text xs state ahead h ih =>
    have hadvances := advances_turnInTemplate stop s text xs
    rw [h] at hadvances
    exact ih.of_advances hadvances
  | case2 s text xs t h =>
    have hadvances := advances_turnInTemplate stop s text xs
    rwa [h] at hadvances

/-! ## The loop over a pass -/

namespace Scan

/-- A character that goes on with a string. -/
def isQuoted (c : Char) : Bool := c != '"' && c != '\n'

/-- A string, after its opening quote. A line feed ends it, and is still ahead. -/
def readString (s : Scan) (start : Location) (xs : List Located) : PassTurn :=
  if peek (back isQuoted xs) = some '"' then
    .again (s.emit .string (front isQuoted xs) start) (back isQuoted xs).tail
  else
    .again ((s.report .openString (front isQuoted xs) start.line (start.column + 1)).emit
      .string (front isQuoted xs) start) (back isQuoted xs)

def turn (stop : Location) (s : Scan) (x : Located) (xs : List Located) : PassTurn :=
  match x.char with
  | ' ' | '\t' | '\r' | '\n' => .again s xs
  | '+' =>
    if peek xs = some '+' then .again (s.emit .merge ['+', '+'] x.place) xs.tail
    else .again (s.emit .plus ['+'] x.place) xs
  | ';' =>
    if peek xs = some ';' then .again s (back (· != '\n') (x :: xs))
    else .again (s.unknown x) xs
  | '"' => s.readString x.place xs
  | '\'' => (s.emit .template [] x.place).readTemplate stop [] xs
  | c =>
    match Kind.ofChar? c with
    | some kind => .again (s.emit kind [c] x.place) xs
    | none =>
      if isLetter c then
        .again (s.word x.place (front isWord (x :: xs)).reverse) (back isWord (x :: xs))
      else if c.isDigit then
        .again (s.emit .number (front isNumeric (x :: xs)) x.place) (back isNumeric (x :: xs))
      else .again (s.unknown x) xs

end Scan

theorem advances_readString (stop : Location) (s : Scan) (start : Location) (x : Located)
    (xs : List Located) : PassTurn.Advances stop (x :: xs) (s.readString start xs) := by
  have hback := back_isSuffix isQuoted xs
  unfold readString
  split
  case isTrue => exact .of_isSuffix ((List.tail_suffix _).trans hback)
  case isFalse => exact .of_isSuffix hback

/-- The character that a word or a number begins with goes on with it, so it is read. -/
theorem advances_turn (stop : Location) (s : Scan) (x : Located) (xs : List Located) :
    PassTurn.Advances stop (x :: xs) (s.turn stop x xs) := by
  have hrest : Advances (x :: xs) xs := .of_isSuffix List.suffix_rfl
  have htail : Advances (x :: xs) xs.tail := .of_isSuffix (List.tail_suffix xs)
  have hback {p : Char → Bool} (hx : p x.char = true) : Advances (x :: xs) (back p (x :: xs)) := by
    rw [back_cons hx]
    exact .of_isSuffix (back_isSuffix p xs)
  unfold turn
  split
  case h_1 | h_2 | h_3 | h_4 => exact hrest
  case h_5 =>
    split
    case isTrue => exact htail
    case isFalse => exact hrest
  case h_6 hx =>
    split
    case isTrue => exact hback (by rw [hx]; decide)
    case isFalse => exact hrest
  case h_7 => exact advances_readString stop s x.place x xs
  case h_8 => exact (advances_readTemplate stop _ [] xs).of_advances hrest
  case h_9 =>
    split
    case h_1 => exact hrest
    case h_2 =>
      split
      case isTrue hletter => exact hback (isWord_of_isLetter hletter)
      case isFalse =>
        split
        case isTrue hdigit => exact hback (isNumeric_of_isDigit hdigit)
        case isFalse => exact hrest

theorem length_lt_of_turn {stop : Location} {s next : Scan} {x : Located} {xs ahead : List Located}
    (h : s.turn stop x xs = .again next ahead) : ahead.length < (x :: xs).length := by
  have hadvances := advances_turn stop s x xs
  rw [h] at hadvances
  exact hadvances.length_lt

def Scan.loop (stop : Location) (s : Scan) : List Located → Cursor
  | [] => ⟨s.into .ground, []⟩
  | x :: xs =>
    match _h : s.turn stop x xs with
    | .again next ahead => loop stop next ahead
    | .leave c => c
termination_by xs => xs.length
decreasing_by exact length_lt_of_turn _h

/-! ## Turns and steps -/

/-- The scan that the loop over a pass leads to after a turn. -/
def PassTurn.finish (stop : Location) : PassTurn → Scan
  | .again s ahead => (s.into .ground).run (ahead ++ [⟨'\n', stop⟩])
  | .leave c => c.scan

/-- The scan that the two loops lead to after a turn of the loop over a template. -/
def TemplateTurn.finish (stop : Location) : TemplateTurn → Scan
  | .again (s, text) ahead => (s.into (.template text)).run (ahead ++ [⟨'\n', stop⟩])
  | .leave t => PassTurn.finish stop t

namespace Scan

variable {stop : Location} {s : Scan} {x : Located} {xs : List Located}

theorem step_newline {y : Located} (hy : y.char = '\n') :
    (s.into .ground).step y = s.into .ground := begin_of_isSpace (by rw [hy]; rfl)

theorem run_class (kind : List Char → Kind) {mode : List Char → Mode} {p : Char → Bool}
    (hmode : ∀ {text : List Char} {y : Located}, (s.into (mode text)).step y =
      if p y.char then s.into (mode (y.char :: text))
      else ((s.into (mode text)).emit (kind text.reverse) text.reverse x.place).begin y)
    (hline : p '\n' = false) (hbegin : s.begin x = s.into (mode [x.char]))
    (hx : p x.char = true) : (s.into .ground).run (x :: (xs ++ [⟨'\n', stop⟩])) =
      ((s.emit (kind (front p (x :: xs))) (front p (x :: xs)) x.place).into .ground).run
        (back p (x :: xs) ++ [⟨'\n', stop⟩]) := by
  obtain ⟨own, hown, hchars, hclass⟩ := exists_front p xs
  obtain ⟨y, ys, hback, hy⟩ := exists_back hline xs stop
  have hstep : ((s.into .ground).run (x :: own)).step y = _ :=
    step_run_while (s := s.into .ground) kind hmode rfl hbegin
      (List.forall_mem_map.mpr hclass) hy
  rw [back_cons hx, front_cons hx, hback, ← hchars]
  conv_lhs => rw [hown, List.append_assoc, hback, ← List.cons_append, run_append, run_cons, hstep]
  rfl

theorem run_word_turn (hx : isLetter x.char = true) :
    (s.into .ground).run (x :: (xs ++ [⟨'\n', stop⟩])) =
      ((s.word x.place (front isWord (x :: xs)).reverse).into .ground).run
        (back isWord (x :: xs) ++ [⟨'\n', stop⟩]) := by
  rw [Scan.word, List.reverse_reverse]
  exact run_class (fun cs => .ofWord (String.ofList cs)) rfl (by decide) (begin_letter hx)
    (isWord_of_isLetter hx)

theorem run_number_turn (hx : x.char.isDigit = true) :
    (s.into .ground).run (x :: (xs ++ [⟨'\n', stop⟩])) =
      ((s.emit .number (front isNumeric (x :: xs)) x.place).into .ground).run
        (back isNumeric (x :: xs) ++ [⟨'\n', stop⟩]) :=
  run_class (fun _ => .number) rfl (by decide) (begin_digit hx) (isNumeric_of_isDigit hx)

/-- The line feed that ends a comment is a blank for the loop, and closes the comment for the
scan. -/
theorem run_comment_turn (hx : x.char = ';') (hpeek : peek xs = some ';') :
    (s.into .ground).run (x :: (xs ++ [⟨'\n', stop⟩])) =
      (s.into .ground).run (back (· != '\n') (x :: xs) ++ [⟨'\n', stop⟩]) := by
  obtain ⟨y, hxs, hy⟩ := exists_cons_of_peek hpeek
  obtain ⟨own, hown, -, hclass⟩ := exists_front (· != '\n') xs.tail
  obtain ⟨z, zs, hback, hz⟩ := exists_back (p := (· != '\n')) (by decide) xs.tail stop
  have hz : z.char = '\n' := by simpa using hz
  have hsemicolon : (s.into .ground).step x = s.into (.semicolon x.place) := begin_semicolon hx
  have hopen : (s.into (.semicolon x.place)).step y = s.into .comment := if_pos hy
  have hrun : (s.into .comment).run own = s.into .comment := by
    refine @run_into s (fun _ => .comment) (· ≠ '\n') ?_ own ?_ []
    · intro text w hw
      exact if_neg hw
    · exact List.forall_mem_map.mpr fun w hw => bne_iff_ne.mp (hclass w hw)
  have hclose : (s.into .comment).step z = s.into .ground := if_pos hz
  have hsame : back (· != '\n') (x :: xs) = back (· != '\n') xs.tail := by
    rw [back_cons (by rw [hx]; decide)]
    conv_lhs => rw [hxs]
    exact back_cons (by rw [hy]; decide) _
  rw [hsame, hback, run_cons, run_cons, hsemicolon, step_newline hz]
  conv_lhs => rw [hxs, hown, List.cons_append, List.append_assoc, hback, run_cons, hopen,
    run_append, hrun, run_cons, hclose]

theorem run_string_turn (hx : x.char = '"') :
    (s.into .ground).run (x :: (xs ++ [⟨'\n', stop⟩])) =
      (s.readString x.place xs).finish stop := by
  obtain ⟨own, hown, hchars, hclass⟩ := exists_front isQuoted xs
  obtain ⟨y, ys, hback, hnext⟩ := exists_peek (back isQuoted xs) stop
  have hquote : (s.into .ground).step x = s.into (.string x.place []) := begin_quote hx
  have hrun : (s.into (.string x.place [])).run own =
      s.into (.string x.place (front isQuoted xs).reverse) := by
    rw [← hchars, ← List.append_nil (List.reverse _)]
    refine run_into (p := fun c => c ≠ '"' ∧ c ≠ '\n') step_string ?_ []
    exact List.forall_mem_map.mpr fun z hz => by simpa [isQuoted] using hclass z hz
  rw [run_cons, hquote]
  conv_lhs => rw [hown, List.append_assoc, run_append, hrun]
  unfold readString
  split
  case isTrue hpeek =>
    obtain ⟨z, hcons, hz⟩ := exists_cons_of_peek hpeek
    have hclose : (s.into (.string x.place (front isQuoted xs).reverse)).step z =
        (s.emit .string (front isQuoted xs) x.place).into .ground := by
      refine (if_pos hz).trans ?_
      rw [List.reverse_reverse]
      rfl
    conv_lhs => rw [hcons, List.cons_append, run_cons, hclose]
    rfl
  case isFalse hpeek =>
    have hline : y.char = '\n' := by
      refine hnext.elim (fun hnext => ?_) id
      have hne : y.char ≠ '"' := fun hy => hpeek (hy ▸ hnext)
      simpa [isQuoted, hne] using eq_false_of_peek_back hnext
    have hbreak : (s.into (.string x.place (front isQuoted xs).reverse)).step y =
        ((s.report .openString (front isQuoted xs) x.place.line (x.place.column + 1)).emit
          .string (front isQuoted xs) x.place).into .ground := by
      refine (if_neg (by rw [hline]; decide)).trans ((if_pos hline).trans ?_)
      rw [List.reverse_reverse]
      rfl
    rw [PassTurn.finish, hback, run_cons, run_cons, hbreak, step_newline hline]

theorem run_turnInTemplate (s : Scan) (text xs : List Located) :
    (s.into (.template text)).run (xs ++ [⟨'\n', stop⟩]) =
      (s.turnInTemplate stop text xs).finish stop := by
  cases xs with
  | nil => exact @inTemplate_newline (s.into (.template text)) ⟨'\n', stop⟩ text rfl
  | cons x xs =>
    have hstep (s' : Scan) (h : (s.into (.template text)).inTemplate text x = s') :
        (s.into (.template text)).run (x :: (xs ++ [⟨'\n', stop⟩])) =
          s'.run (xs ++ [⟨'\n', stop⟩]) := by
      rw [run_cons, ← h]
      rfl
    rw [List.cons_append]
    unfold turnInTemplate
    dsimp only
    split
    case h_1 hx => exact hstep _ (inTemplate_brace hx)
    case h_2 hx =>
      obtain ⟨own, hown, hchars, hclass⟩ := exists_front isWord xs
      obtain ⟨y, ys, hback, hy⟩ := exists_back (p := isWord) (by decide) xs stop
      rw [hstep _ (inTemplate_slot hx), TemplateTurn.finish, hback, Scan.word,
        List.reverse_reverse, ← hchars]
      conv_lhs => rw [hown, List.append_assoc, hback, literal_eq_add]
      rw [literal_eq_add]
      exact run_slot (s := (s.into (.template text)).add _) hclass hy
    case h_3 hx =>
      rw [hstep _ (inTemplate_close hx), literal_eq_add, literal_eq_add]
      rfl
    case h_4 hx =>
      rw [hstep _ (inTemplate_newline hx), run_of_isStopped ⟨_, rfl⟩]
      rfl
    case h_5 hclose hopen hquote hline =>
      exact hstep _ (inTemplate_plain (by simpa [isPlain] using ⟨⟨⟨hopen, hclose⟩, hquote⟩, hline⟩))

theorem run_readTemplate (s : Scan) (text xs : List Located) :
    (s.into (.template text)).run (xs ++ [⟨'\n', stop⟩]) =
      (s.readTemplate stop text xs).finish stop := by
  fun_induction readTemplate stop s text xs with
  | case1 s text xs state ahead h ih => rw [run_turnInTemplate, h, ← ih, TemplateTurn.finish]
  | case2 s text xs t h => rw [run_turnInTemplate, h, TemplateTurn.finish]

theorem run_turn (s : Scan) (x : Located) (xs : List Located) :
    (s.into .ground).run (x :: (xs ++ [⟨'\n', stop⟩])) = (s.turn stop x xs).finish stop := by
  have hstep (s' : Scan) (h : (s.into .ground).begin x = s') :
      (s.into .ground).run (x :: (xs ++ [⟨'\n', stop⟩])) = s'.run (xs ++ [⟨'\n', stop⟩]) := by
    rw [run_cons, ← h]
    rfl
  obtain ⟨y, ys, hxs, hnext⟩ := exists_peek xs stop
  have hne {c : Char} (hpeek : peek xs ≠ some c) (hc : c ≠ '\n') : y.char ≠ c := by
    rintro rfl
    exact hnext.elim hpeek hc
  unfold turn
  split
  case h_1 hx | h_2 hx | h_3 hx | h_4 hx =>
    exact hstep _ (begin_of_isSpace (by rw [hx]; rfl))
  case h_5 hx =>
    rw [hstep _ (begin_plus hx)]
    split
    case isTrue hpeek =>
      obtain ⟨z, hcons, hz⟩ := exists_cons_of_peek hpeek
      have hmerge : ((s.into .ground).into (.plus x.place)).step z = _ := if_pos hz
      conv_lhs => rw [hcons, List.cons_append, run_cons, hmerge]
      rfl
    case isFalse hpeek =>
      have hplus : ((s.into .ground).into (.plus x.place)).step y = _ :=
        if_neg (hne hpeek (by decide))
      rw [PassTurn.finish, hxs, run_cons, hplus]
      rfl
  case h_6 hx =>
    split
    case isTrue hpeek => exact run_comment_turn hx hpeek
    case isFalse hpeek =>
      have hunknown : ((s.into .ground).into (.semicolon x.place)).step y = _ :=
        if_neg (hne hpeek (by decide))
      rw [hstep _ (begin_semicolon hx), PassTurn.finish, hxs, run_cons, hunknown, ← hx]
      rfl
  case h_7 hx => exact run_string_turn hx
  case h_8 hx =>
    rw [hstep _ (begin_template hx), ← run_readTemplate]
    rfl
  case h_9 hspace htab hreturn hfeed hplus hsemicolon hquote htick =>
    have hspecial : x.char ∉ special := by
      simpa [special] using ⟨hspace, htab, hreturn, hfeed, hplus, hsemicolon, hquote, htick⟩
    split
    case h_1 kind hkind => exact hstep _ (begin_mark hkind)
    case h_2 hkind =>
      split
      case isTrue hletter => exact run_word_turn hletter
      case isFalse hletter =>
        split
        case isTrue hdigit => exact run_number_turn hdigit
        case isFalse hdigit =>
          refine hstep _ ?_
          rw [begin_of_not_special (hspecial), hkind]
          dsimp only
          rw [if_neg hletter, if_neg hdigit]
          rfl

/-- The loop over a pass comes to what the scan of its characters comes to. -/
theorem run_loop (stop : Location) (s : Scan) (xs : List Located) :
    (s.into .ground).run (xs ++ [⟨'\n', stop⟩]) = (s.loop stop xs).scan := by
  fun_induction loop stop s xs with
  | case1 s => exact step_newline (y := ⟨'\n', stop⟩) rfl
  | case2 s x xs next ahead h ih => rw [List.cons_append, run_turn, h, PassTurn.finish, ih]
  | case3 s x xs c h => rw [List.cons_append, run_turn, h, PassTurn.finish]

/-- The loop over a pass ends when there are no characters ahead, or when it is broken off. -/
theorem loop_cases (stop : Location) (s : Scan) (xs : List Located) :
    (s.loop stop xs).scan.mode = .ground ∧ (s.loop stop xs).ahead = [] ∨
      (s.loop stop xs).IsBrokenOff stop xs := by
  fun_induction loop stop s xs with
  | case1 s => exact .inl ⟨rfl, rfl⟩
  | case2 s x xs next ahead h ih =>
    have hadvances := advances_turn stop s x xs
    rw [h] at hadvances
    exact ih.imp_right (·.of_isSuffix hadvances.isSuffix)
  | case3 s x xs c h =>
    have hadvances := advances_turn stop s x xs
    rw [h] at hadvances
    exact .inr hadvances

/-- What the loop leaves ahead begins with a line feed, if it is not empty. -/
theorem ahead_loop (stop : Location) (s : Scan) (xs : List Located) :
    (s.loop stop xs).ahead <:+ xs ∧ ∀ y ∈ (s.loop stop xs).ahead.head?, y.char = '\n' := by
  rcases loop_cases stop s xs with ⟨-, hnil⟩ | hbroken
  · rw [hnil]
    exact ⟨List.nil_suffix, by simp⟩
  · exact hbroken.2

theorem loop_newline (hx : x.char = '\n') : s.loop stop (x :: xs) = s.loop stop xs := by
  have hturn : s.turn stop x xs = .again s xs := by
    unfold turn
    rw [hx]
    rfl
  rw [loop]
  split
  case h_1 next ahead h =>
    rw [hturn] at h
    cases h
    rfl
  case h_2 c h =>
    rw [hturn] at h
    cases h

end Scan

namespace Pass

/-- The pass over some characters, by its loop. It ends where the cursor is. -/
def ofLoop (xs : List Located) (stop : Location) : Pass :=
  let c := fresh.loop stop xs
  let place := placeOf stop c.ahead
  match c.scan.mode with
  | .stopped _ => ⟨[], c.scan.problems.reverse, place⟩
  | _ => ⟨c.scan.tokens.reverse ++ [.atEnd place.offset place.line], c.scan.problems.reverse, place⟩

/-- **Loops.** A pass, which reads one character at a time, is the pass that the loops make. -/
theorem ofChars_eq_ofLoop (xs : List Located) (stop : Location) :
    ofChars xs stop = ofLoop xs stop := by
  have hrun : fresh.run (xs ++ [⟨'\n', stop⟩]) = (fresh.loop stop xs).scan :=
    run_loop stop fresh xs
  unfold ofLoop
  dsimp only
  rcases loop_cases stop fresh xs with ⟨hground, hnil⟩ | ⟨⟨s, hs⟩, -⟩
  · rw [ofChars_of_ground (hrun ▸ hground), hrun, hground, hnil]
    rfl
  · have hstopped : (fresh.loop stop xs).scan.mode =
        .stopped (placeOf stop (fresh.loop stop xs).ahead) := by
      rw [hs]
      rfl
    rw [ofChars_of_stopped (hrun ▸ hstopped), hrun, hstopped]

end Pass

end Splice
