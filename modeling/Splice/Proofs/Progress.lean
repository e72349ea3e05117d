import Splice.Proofs.Streams
import Splice.Proofs.Token.Turns

/-!
# Progress of scans

Each turn of a loop over the characters of a pass reads a character or ends the pass, which leaves
the characters that the next pass begins with (`unread_next`). They begin with a line feed, which
that pass reads (`lineFeeds_unread_next`), so there are no more passes than one for each line feed,
and the first one, before the reader is at the end and stays there (`passes_progress`).
-/

namespace Splice

open Text Scan

/-! ## Line feeds -/

def lineFeeds (xs : List Located) : Nat := (xs.map Located.char).count '\n'

theorem lineFeeds_le {xs ys : List Located} (h : ys <:+ xs) : lineFeeds ys ≤ lineFeeds xs :=
  (h.sublist.map Located.char).count_le '\n'

theorem lineFeeds_cons {x : Located} (hx : x.char = '\n') (xs : List Located) :
    lineFeeds (x :: xs) = lineFeeds xs + 1 := by
  rw [lineFeeds, List.map_cons, hx, List.count_cons_self, lineFeeds]

theorem lineFeeds_located (octets : List UInt8) :
    lineFeeds (Source.ofOctets octets).located = octets.count 10 := by
  rw [lineFeeds, Source.map_char_located]
  exact count_newline_decode octets

namespace Reader

/-! ## Unread characters -/

/-- The characters of the source from the reader's place on. -/
def unread (r : Reader) : List Located :=
  r.source.located.dropWhile (·.place.offset < r.place.offset)

/-- Where the loop over the unread characters ends. -/
def cursor (r : Reader) : Cursor := fresh.loop r.source.stop r.unread

variable {octets : List UInt8} {r : Reader}

theorem unread_isSuffix (r : Reader) : r.unread <:+ r.source.located := List.dropWhile_suffix _

theorem pass_eq_ofLoop (r : Reader) : r.pass = .ofLoop r.unread r.source.stop :=
  Pass.ofChars_eq_ofLoop _ _

theorem ended_pass (r : Reader) : r.pass.ended = placeOf r.source.stop r.cursor.ahead := by
  rw [pass_eq_ofLoop, Pass.ofLoop]
  split <;> rfl

theorem problems_pass (r : Reader) : r.pass.problems = r.cursor.scan.problems.reverse := by
  rw [pass_eq_ofLoop, Pass.ofLoop]
  split <;> rfl

/-- A reader at the place of the first of the last characters, or at the end, has not read these
characters. -/
theorem unread_eq {xs ys : List Located} (h : (Source.ofOctets octets).located = xs ++ ys)
    (failed : Bool) :
    (Reader.mk (.ofOctets octets) (placeOf (Source.ofOctets octets).stop ys) failed).unread =
      ys := by
  have hterminated : (Source.ofOctets octets).terminated =
      xs ++ (ys ++ [⟨'\n', (Source.ofOctets octets).stop⟩]) := by
    rw [Source.terminated, h, List.append_assoc]
  have hahead : (Reader.mk (.ofOctets octets) (placeOf (Source.ofOctets octets).stop ys)
      failed).ahead = ys ++ [⟨'\n', (Source.ofOctets octets).stop⟩] := by
    cases ys with
    | nil => exact ahead_eq hterminated failed
    | cons y ys => exact ahead_eq hterminated failed
  exact List.append_cancel_right hahead

theorem unread_next (h : r.source = .ofOctets octets) : r.next.unread = r.cursor.ahead := by
  obtain ⟨xs, hxs⟩ := (ahead_loop r.source.stop fresh r.unread).1.trans r.unread_isSuffix
  have hlocated : (Source.ofOctets octets).located = xs ++ r.cursor.ahead := by
    rw [← h]
    exact hxs.symm
  rw [next, ended_pass, h]
  exact unread_eq hlocated _

theorem unread_next_isSuffix (h : r.source = .ofOctets octets) : r.next.unread <:+ r.unread := by
  rw [unread_next h]
  exact (ahead_loop _ _ _).1

theorem char_of_mem_head?_unread_next (h : r.source = .ofOctets octets) :
    ∀ x ∈ r.next.unread.head?, x.char = '\n' := by
  rw [unread_next h]
  exact (ahead_loop _ _ _).2

/-- A pass ends at the end, or at a line feed where it has found an open template. -/
theorem place_next (r : Reader) : r.next.place = r.source.stop ∨
    ∃ x ∈ r.source.located, x.char = '\n' ∧ r.next.place = x.place ∧
      r.pass.problems.getLast? = some ⟨.openTemplate, x.place.line, x.place.column, ""⟩ := by
  have hplace : r.next.place = placeOf r.source.stop r.cursor.ahead := r.ended_pass
  cases hahead : r.cursor.ahead with
  | nil => exact .inl (by rw [hplace, hahead]; rfl)
  | cons x xs =>
    rcases loop_cases r.source.stop fresh r.unread with ⟨-, hnil⟩ | ⟨⟨s, hscan⟩, hsuffix, hfeed⟩
    · exact absurd (hahead.symm.trans hnil) (List.cons_ne_nil _ _)
    · rw [← cursor, hahead] at hscan hsuffix hfeed
      have hx : x ∈ r.source.located :=
        (hsuffix.trans r.unread_isSuffix).subset List.mem_cons_self
      refine .inr ⟨x, hx, hfeed x rfl, by rw [hplace, hahead]; rfl, ?_⟩
      rw [problems_pass, hscan, List.getLast?_reverse]
      rfl

/-! ## Passes -/

/-- A pass that begins at a line feed reads it, so it leaves fewer line feeds, or nothing. -/
theorem lineFeeds_unread_next (h : r.source = .ofOctets octets)
    (hfirst : ∀ x ∈ r.unread.head?, x.char = '\n') :
    r.next.unread = [] ∨ lineFeeds r.next.unread < lineFeeds r.unread := by
  cases hunread : r.unread with
  | nil =>
    have hsuffix := unread_next_isSuffix h
    rw [hunread] at hsuffix
    exact .inl (List.suffix_nil.mp hsuffix)
  | cons x xs =>
    have hx : x.char = '\n' := hfirst x (by rw [hunread]; rfl)
    have hsuffix : r.next.unread <:+ xs := by
      rw [unread_next h, cursor, hunread, loop_newline hx]
      exact (ahead_loop _ _ _).1
    rw [lineFeeds_cons hx]
    exact .inr (Nat.lt_succ_of_le (lineFeeds_le hsuffix))

/-- Each pass after the first one has read a line feed, or there is nothing left. -/
theorem unread_after (octets : List UInt8) (n : Nat) :
    ((ofSource (.ofOctets octets)).after (n + 1)).unread = [] ∨
      lineFeeds ((ofSource (.ofOctets octets)).after (n + 1)).unread + n ≤ octets.count 10 := by
  have hsource := source_after (ofSource (.ofOctets octets))
  induction n with
  | zero =>
    right
    rw [← lineFeeds_located]
    exact lineFeeds_le ((unread_next_isSuffix (hsource 0)).trans (unread_isSuffix _))
  | succ n ih =>
    have hnext : ((ofSource (.ofOctets octets)).after (n + 1 + 1)).unread = [] ∨
        lineFeeds ((ofSource (.ofOctets octets)).after (n + 1 + 1)).unread <
          lineFeeds ((ofSource (.ofOctets octets)).after (n + 1)).unread :=
      lineFeeds_unread_next (hsource (n + 1)) (char_of_mem_head?_unread_next (hsource n))
    rcases hnext with hnil | hlt
    · exact .inl hnil
    · rcases ih with hnil | hle
      · rw [hnil] at hlt
        exact absurd hlt (Nat.not_lt_zero _)
      · right
        omega

theorem unread_after_count (octets : List UInt8) :
    ((ofSource (.ofOctets octets)).after (octets.count 10 + 1)).unread = [] := by
  refine (unread_after octets (octets.count 10)).elim id fun hle => ?_
  have hsource := source_after (ofSource (.ofOctets octets)) (octets.count 10)
  have hfirst := char_of_mem_head?_unread_next hsource
  rw [← after] at hfirst
  cases hunread : ((ofSource (.ofOctets octets)).after (octets.count 10 + 1)).unread with
  | nil => rfl
  | cons x xs =>
    rw [hunread] at hfirst hle
    rw [lineFeeds_cons (hfirst x rfl)] at hle
    omega

/-! ## The end -/

variable (octets) in
/-- The readers of some octets that are at their end. -/
structure IsAtEnd (r : Reader) : Prop where
  source : r.source = .ofOctets octets
  place : r.place = (Source.ofOctets octets).stop

theorem IsAtEnd.unread (h : IsAtEnd octets r) : r.unread = [] := by
  obtain ⟨source, place, failed⟩ := r
  obtain ⟨rfl, rfl⟩ := h
  exact unread_eq (List.append_nil _).symm failed

theorem IsAtEnd.pass (h : IsAtEnd octets r) : r.pass =
    ⟨[.atEnd octets.length (octets.count 10)], [], (Source.ofOctets octets).stop⟩ := by
  have hpass : r.pass = .ofChars [] r.source.stop := congrArg (Pass.ofChars · _) h.unread
  rw [hpass, h.source]
  refine (rfl : _ = Pass.mk [.atEnd (Source.ofOctets octets).stop.offset _] [] _).trans ?_
  rw [Source.stop_ofOctets]

theorem IsAtEnd.tokens (h : IsAtEnd octets r) :
    r.tokens = [.atEnd octets.length (octets.count 10)] := by
  rw [Reader.tokens, h.pass, Source.stop_ofOctets]
  split <;> rfl

theorem IsAtEnd.next (h : IsAtEnd octets r) : IsAtEnd octets r.next where
  source := h.source
  place := congrArg Pass.ended h.pass

theorem IsAtEnd.after {n : Nat} (h : IsAtEnd octets (r.after n)) {m : Nat} (hm : n ≤ m) :
    IsAtEnd octets (r.after m) := by
  induction m, hm using Nat.le_induction with
  | base => exact h
  | succ m _ ih => exact ih.next

theorem isAtEnd_after (octets : List UInt8) :
    IsAtEnd octets ((ofSource (.ofOctets octets)).after (octets.count 10 + 1)) where
  source := source_after _ _
  place := by
    have hsource := source_after (ofSource (.ofOctets octets)) (octets.count 10)
    have hunread := unread_after_count octets
    rw [Reader.after, unread_next hsource] at hunread
    refine (ended_pass _).trans ?_
    rw [hunread, hsource]
    rfl

/-- A pass of a reader is what the loops make of the unread characters. It leaves those that the
next pass begins with, and it ends at the end, or at a line feed where it has found an open
template. -/
structure Proceeds (r : Reader) : Prop where
  pass : r.pass = .ofLoop r.unread r.source.stop
  unread : r.next.unread = r.cursor.ahead
  place : r.next.place = r.source.stop ∨ ∃ x ∈ r.source.located, x.char = '\n' ∧
    r.next.place = x.place ∧ r.pass.problems.getLast? =
      some ⟨.openTemplate, x.place.line, x.place.column, ""⟩

end Reader

/-- **Progress.** A turn of the loop over a pass, and one of the loop over a template, reads a
character or ends the pass. So each pass ends, at the end or at the line feed of an open template;
after one pass more than there are line feeds the reader is at the end, and once it is there its
passes find no problems and give only the end of the input. -/
theorem passes_progress (octets : List UInt8) :
    (∀ stop (s : Scan) x xs, PassTurn.Advances stop (x :: xs) (s.turn stop x xs)) ∧
    (∀ stop (s : Scan) text xs, TemplateTurn.Advances stop xs (s.turnInTemplate stop text xs)) ∧
    (∀ n, ((Reader.ofSource (.ofOctets octets)).after n).Proceeds) ∧
    ((Reader.ofSource (.ofOctets octets)).after (octets.count 10 + 1)).place =
      (Source.ofOctets octets).stop ∧
    ∀ n, ((Reader.ofSource (.ofOctets octets)).after n).place = (Source.ofOctets octets).stop →
      ∀ m, n ≤ m → ((Reader.ofSource (.ofOctets octets)).after m).pass.problems = [] ∧
        ((Reader.ofSource (.ofOctets octets)).after m).tokens =
          [.atEnd octets.length (octets.count 10)] := by
  have hsource := Reader.source_after (.ofSource (.ofOctets octets))
  refine ⟨advances_turn, advances_turnInTemplate, fun n => ?_, (Reader.isAtEnd_after octets).place,
    fun n hplace m hm => ?_⟩
  · exact ⟨Reader.pass_eq_ofLoop _, Reader.unread_next (hsource n), Reader.place_next _⟩
  · have hend : Reader.IsAtEnd octets ((Reader.ofSource (.ofOctets octets)).after m) :=
      Reader.IsAtEnd.after ⟨hsource n, hplace⟩ hm
    exact ⟨congrArg Pass.problems hend.pass, hend.tokens⟩

/-- A slot without a word in an open template, another open template below it, and below that a
character that begins no token. -/
def openSlotOctets : List UInt8 := encode ['\'', '{', '\n', '\'', 'a', '\n', '$']

/-- The first two passes end at the line feeds, the third one at the end. -/
theorem passes_progress_openSlot :
    (((Reader.ofSource (.ofOctets openSlotOctets)).after 1).place = ⟨2, 0, 2⟩ ∧
      ((Reader.ofSource (.ofOctets openSlotOctets)).after 2).place = ⟨5, 1, 2⟩ ∧
      ((Reader.ofSource (.ofOctets openSlotOctets)).after 3).place = ⟨7, 2, 1⟩) ∧
      3 ≤ 5 ∧ ((Reader.ofSource (.ofOctets openSlotOctets)).after 5).pass.problems = [] ∧
      ((Reader.ofSource (.ofOctets openSlotOctets)).after 5).tokens = [.atEnd 7 2] := by
  obtain ⟨-, -, -, -, hstays⟩ := passes_progress openSlotOctets
  exact ⟨⟨rfl, rfl, rfl⟩, by decide, hstays 3 rfl 5 (by decide)⟩

end Splice
