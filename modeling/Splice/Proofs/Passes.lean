import Splice.Proofs.Lines
import Splice.Proofs.Token.Reports

/-!
# Passes of a reader

A reader may pass over its source any number of times. A pass goes on after the line feed at which
the pass before it has stopped, and after a pass to the end there is nothing left to read. So what
the passes find together are the problems of the characters that they have read (`IsPast.next`).
-/

namespace Splice

open Text Scan

namespace Reader

def after (r : Reader) : Nat → Reader
  | 0 => r
  | n + 1 => (r.after n).next

/-- What some passes of a reader find, in the order in which they find it. -/
def found (r : Reader) : Nat → List Problem
  | 0 => []
  | n + 1 => r.found n ++ (r.after n).pass.problems

theorem failed_after (source : Source) (n : Nat) :
    ((ofSource source).after n).failed = true ↔ (ofSource source).found n ≠ [] := by
  induction n with
  | zero => simp [after, found, ofSource]
  | succ n ih =>
    rw [after, next, found, Bool.or_eq_true, ih, Bool.not_eq_true', List.isEmpty_eq_false_iff, Ne,
      Ne, Ne, List.append_eq_nil_iff, not_and_or]

/-! ## What passes have read -/

/-- A reader of octets that has found some problems: it has read the characters they are in, and
scans those after them. -/
structure IsPast (octets : List UInt8) (r : Reader) (problems : List Problem) : Prop where
  source : r.source = .ofOctets octets
  exists_read : ∃ read rest, (Source.ofOctets octets).terminated = read ++ rest ∧
    Reports read problems.reverse ∧ fresh.run r.ahead = fresh.run rest

variable {octets : List UInt8} {r : Reader} {problems : List Problem}

theorem isPast_ofSource (octets : List UInt8) : IsPast octets (ofSource (.ofOctets octets)) [] where
  source := rfl
  exists_read := ⟨[], _, rfl, .nil, congrArg _ (ahead_ofSource _)⟩

theorem run_fresh_newline {x : Located} (hx : x.char = '\n') (xs : List Located) :
    fresh.run (x :: xs) = fresh.run xs := by
  rw [run_cons, step_ground rfl]
  unfold begin
  rw [hx]
  rfl

/-- One pass: it goes over all that is left, or up to a line feed. -/
theorem IsPast.next (h : IsPast octets r problems) :
    IsPast octets r.next (problems ++ r.pass.problems) := by
  obtain ⟨hsource, read, rest, hterminated, hread, hahead⟩ := h
  refine ⟨hsource, ?_⟩
  have hproblems : r.pass.problems = (fresh.run rest).problems.reverse := by
    rw [← hahead]
    exact Pass.problems_ofChars _ _
  rw [hproblems, List.reverse_append, List.reverse_reverse]
  have hfresh : ¬fresh.IsStopped := by simp [IsStopped, fresh]
  have hnone : fresh.Reported [] := ⟨[], [], rfl, rfl, .nil⟩
  rcases hnone.run hfresh rest with ⟨hgoes, hreported⟩ | ⟨ys, y, zs, rfl, hy, hmode, hreports⟩
  · have hground : (fresh.run rest).mode = .ground := by
      have hends := mode_run_newline fresh
        (r.source.located.dropWhile (·.place.offset < r.place.offset)) r.source.stop
      rw [← ahead, hahead] at hends
      exact hends.resolve_right hgoes
    obtain ⟨done, held, hsplit, hheld, hdone⟩ := hreported
    rw [hground] at hheld
    obtain rfl : held = [] := hheld
    rw [List.nil_append, List.append_nil] at hsplit
    have hended : r.pass.ended = (Source.ofOctets octets).stop := by
      rw [← hsource]
      exact congrArg Pass.ended (Pass.ofChars_of_ground ((congrArg _ hahead).trans hground))
    have hnext : r.next.ahead = [⟨'\n', (Source.ofOctets octets).stop⟩] := by
      rw [Reader.next, hended, hsource]
      exact ahead_eq (x := ⟨'\n', _⟩) rfl _
    refine ⟨read ++ rest, [], by rw [hterminated, List.append_nil], ?_, ?_⟩
    · rw [hsplit] at hdone ⊢
      exact hread.append hdone
    · rw [hnext]
      exact run_fresh_newline rfl []
  · have hended : r.pass.ended = y.place :=
      congrArg Pass.ended (Pass.ofChars_of_stopped ((congrArg _ hahead).trans hmode))
    have hsplit : (Source.ofOctets octets).terminated = (read ++ ys) ++ y :: zs := by
      rw [hterminated, List.append_assoc]
    have hnext : r.next.ahead = y :: zs := by
      rw [Reader.next, hended, hsource]
      exact ahead_eq hsplit _
    refine ⟨read ++ (ys ++ [y]), zs, ?_, hread.append hreports, ?_⟩
    · rw [hsplit]
      simp
    · rw [hnext]
      exact run_fresh_newline hy zs

theorem isPast_after (octets : List UInt8) (n : Nat) :
    IsPast octets ((ofSource (.ofOctets octets)).after n)
      ((ofSource (.ofOctets octets)).found n) := by
  induction n with
  | zero => exact isPast_ofSource octets
  | succ n ih => exact ih.next

end Reader

/-- **Problems of passes.** The passes of a reader find problems in the order of their lines and
columns. The line of each is a line of the reader's source, it has the text of the problem at its
column, and the problem points at a character that begins no token, after the quote of a string that
is open to the end of the line, or at the end of a line in a template. The reader has failed if and
only if there are any. -/
theorem problems_of_passes (octets : List UInt8) (n : Nat) :
    ((Reader.ofSource (.ofOctets octets)).found n).Pairwise Problem.Precedes ∧
    (∀ p ∈ (Reader.ofSource (.ofOctets octets)).found n, ∃ line,
      (lines ((Reader.ofSource (.ofOctets octets)).after n).source.text)[p.line]? = some line ∧
        p.text.toList <+: line.drop p.column ∧ p.Points line) ∧
    (((Reader.ofSource (.ofOctets octets)).after n).failed = true ↔
      (Reader.ofSource (.ofOctets octets)).found n ≠ []) := by
  obtain ⟨hsource, read, rest, hterminated, hreports, -⟩ := Reader.isPast_after octets n
  refine ⟨?_, ?_, Reader.failed_after _ n⟩
  · have hplaces : (read ++ rest).Pairwise fun x y => x.place.Precedes y.place := by
      rw [← hterminated, Source.terminated_ofOctets]
      exact pairwise_precedes_locate _ _
    exact List.pairwise_reverse.mp (hreports.pairwise (List.pairwise_append.mp hplaces).1)
  · intro p hp
    rw [hsource]
    obtain ⟨line, hline, hpoints⟩ :=
      hreports.exists_points hterminated p (List.mem_reverse.mpr hp)
    exact ⟨line, hline, hpoints.text_prefix, hpoints⟩

/-- A character that begins no token and an open string, an open template below them, and below it
a second such character. -/
def problemOctets : List UInt8 := encode ['$', '"', 'a', '\n', '\'', 'b', '\n', '$']

/-- The first pass stops at the open template, and the second one finds what is below it. -/
theorem problems_of_two_passes :
    (Reader.ofSource (.ofOctets problemOctets)).found 2 =
      [⟨.unknownCharacter, 0, 0, "$"⟩, ⟨.openString, 0, 2, "a"⟩, ⟨.openTemplate, 1, 2, ""⟩,
        ⟨.unknownCharacter, 2, 0, "$"⟩] ∧
      ((Reader.ofSource (.ofOctets problemOctets)).after 2).failed = true := by
  have hfound : (Reader.ofSource (.ofOctets problemOctets)).found 2 =
      [⟨.unknownCharacter, 0, 0, "$"⟩, ⟨.openString, 0, 2, "a"⟩, ⟨.openTemplate, 1, 2, ""⟩,
        ⟨.unknownCharacter, 2, 0, "$"⟩] := rfl
  refine ⟨hfound, (problems_of_passes problemOctets 2).2.2.mpr ?_⟩
  rw [hfound]
  exact List.cons_ne_nil _ _

end Splice
