import Mathlib.Data.List.Induction
import Mathlib.Data.List.TakeWhile
import Splice.Proofs.Text.Decoding

/-!
# Places in a source

The location of a character says what was read before it: how many octets, how many line feeds, and
how many characters since the last line feed. After decoded octets these are counts of the octets
and of the characters they stand for (`Location.read_decode`).
-/

namespace Splice

open Text

namespace Location

variable (l : Location) (ps : List Piece)

def read : Location := ps.foldl after l

@[simp] theorem read_nil : l.read [] = l := rfl

@[simp] theorem read_cons (p : Piece) : l.read (p :: ps) = (l.after p).read ps := rfl

theorem read_append (qs : List Piece) : l.read (ps ++ qs) = (l.read ps).read qs :=
  List.foldl_append

theorem offset_after (p : Piece) : (l.after p).offset = l.offset + p.size := by
  unfold after
  split <;> rfl

theorem offset_read : (l.read ps).offset = l.offset + (ps.flatMap Piece.octets).length := by
  induction ps generalizing l with
  | nil => rfl
  | cons p ps ih =>
    rw [read_cons, ih, offset_after, List.flatMap_cons, List.length_append, Piece.length_octets,
      Nat.add_assoc]

theorem line_read : (l.read ps).line = l.line + (ps.map Piece.char).count '\n' := by
  induction ps generalizing l with
  | nil => rfl
  | cons p ps ih =>
    rw [read_cons, ih, List.map_cons, after]
    by_cases h : p.char = '\n'
    · rw [if_pos h, h, List.count_cons_self]
      dsimp only
      omega
    · rw [if_neg h, List.count_cons_of_ne h]

end Location

/-- The characters of a text after its last line feed. -/
def lastLine (text : List Char) : List Char := (text.reverse.takeWhile (· != '\n')).reverse

theorem lastLine_concat (text : List Char) (c : Char) :
    lastLine (text ++ [c]) = if c = '\n' then [] else lastLine text ++ [c] := by
  unfold lastLine
  rw [List.reverse_concat]
  split
  case isTrue h =>
    rw [h]
    rfl
  case isFalse h =>
    rw [List.takeWhile_cons_of_pos (p := (· != '\n')) (bne_iff_ne.mpr h), List.reverse_cons]

theorem newline_not_mem_lastLine (text : List Char) : '\n' ∉ lastLine text := by
  intro h
  have hne := List.mem_takeWhile_imp (List.mem_reverse.mp h)
  exact absurd hne (by decide)

theorem lastLine_append {line : List Char} (h : '\n' ∉ line) (text : List Char) :
    lastLine (text ++ line) = lastLine text ++ line := by
  induction line using List.reverseRecOn with
  | nil => rw [List.append_nil, List.append_nil]
  | append_singleton line c ih =>
    have hc : c ≠ '\n' := fun hc => h (by simp [hc])
    have hline : '\n' ∉ line := fun hline => h (List.mem_append_left _ hline)
    rw [← List.append_assoc, lastLine_concat, if_neg hc, ih hline, List.append_assoc]

theorem exists_eq_append_lastLine (text : List Char) :
    ∃ earlier, text = earlier ++ lastLine text ∧ lastLine earlier = [] := by
  induction text using List.reverseRecOn with
  | nil => exact ⟨[], rfl, rfl⟩
  | append_singleton text c ih =>
    rw [lastLine_concat]
    split
    case isTrue hc =>
      refine ⟨text ++ [c], (List.append_nil _).symm, ?_⟩
      rw [lastLine_concat, if_pos hc]
    case isFalse hc =>
      obtain ⟨earlier, htext, hearlier⟩ := ih
      exact ⟨earlier, by rw [← List.append_assoc, ← htext], hearlier⟩

/-! ## Lines of a text -/

theorem length_lines (text : List Char) : (lines text).length = text.count '\n' + 1 := by
  unfold lines
  induction text with
  | nil => rfl
  | cons c text ih =>
    rw [List.splitOn_cons_eq_if_modifyHead]
    by_cases h : c = '\n'
    · simp [h, ih]
    · simp [h, ih]

theorem head?_lines (text : List Char) :
    (lines text).head? = some (text.takeWhile (· != '\n')) := by
  unfold lines
  induction text with
  | nil => rfl
  | cons c text ih =>
    rw [List.splitOn_cons_eq_if_modifyHead]
    by_cases h : c = '\n'
    · simp [h]
    · simp [h, ih]

/-- The line of a place in a text: what is before it on its line, and what follows up to the next
line feed. -/
theorem getElem?_lines (before after : List Char) : (lines (before ++ after))[before.count '\n']? =
    some (lastLine before ++ after.takeWhile (· != '\n')) := by
  obtain ⟨earlier, hbefore, hearlier⟩ := exists_eq_append_lastLine before
  have hline : '\n' ∉ lastLine before := newline_not_mem_lastLine before
  have hcount : before.count '\n' = earlier.count '\n' := by
    conv_lhs => rw [hbefore]
    rw [List.count_append, List.count_eq_zero_of_not_mem hline, Nat.add_zero]
  have hfirst : (lines (lastLine before ++ after))[0]? =
      some (lastLine before ++ after.takeWhile (· != '\n')) := by
    have hne : ∀ c ∈ lastLine before, (c != '\n') = true := by
      intro c hc
      exact bne_iff_ne.mpr fun h => hline (h ▸ hc)
    rw [← List.head?_eq_getElem?, head?_lines, List.takeWhile_append_of_pos hne]
  rw [hcount, ← hfirst]
  conv_lhs => rw [hbefore, List.append_assoc]
  rcases List.eq_nil_or_concat earlier with rfl | ⟨first, c, hconcat⟩
  · rfl
  · obtain rfl : earlier = first ++ [c] := hconcat.trans List.concat_eq_append
    have hc : c = '\n' := by
      rw [lastLine_concat] at hearlier
      split at hearlier
      case isTrue hc => exact hc
      case isFalse => simp at hearlier
    have hsplit : lines (first ++ c :: (lastLine before ++ after)) =
        lines first ++ lines (lastLine before ++ after) := by
      rw [hc]
      exact List.splitOn_append_cons_self _ _
    have hlength : (first ++ [c]).count '\n' = (lines first).length := by
      rw [length_lines, hc]
      simp
    rw [← List.append_cons, hsplit, hlength, List.getElem?_append_right (Nat.le_refl _),
      Nat.sub_self]

theorem Location.column_read (ps : List Piece) :
    (Location.origin.read ps).column = (lastLine (ps.map Piece.char)).length := by
  induction ps using List.reverseRecOn with
  | nil => rfl
  | append_singleton ps p ih =>
    rw [read_append, read_cons, read_nil, List.map_append, List.map_singleton, lastLine_concat,
      after]
    split
    case isTrue => rfl
    case isFalse => rw [List.length_append, ih]; rfl

theorem place_of_mem_head?_locate {l : Location} {ps : List Piece} {x : Located}
    (h : x ∈ (locate l ps).head?) : x.place = l := by
  cases ps with
  | nil => cases h
  | cons p ps =>
    cases h
    rfl

theorem exists_pieces_of_mem_locate {l : Location} {ps : List Piece} {x : Located}
    (h : x ∈ locate l ps) :
    ∃ qs p rs, ps = qs ++ p :: rs ∧ x = ⟨p.char, l.read qs⟩ := by
  induction ps generalizing l with
  | nil => exact absurd h List.not_mem_nil
  | cons p ps ih =>
    rcases List.mem_cons.mp h with rfl | h
    · exact ⟨[], p, ps, rfl, rfl⟩
    · obtain ⟨qs, q, rs, rfl, rfl⟩ := ih h
      exact ⟨p :: qs, q, rs, rfl, rfl⟩

theorem le_offset_of_mem_locate {l : Location} {ps : List Piece} {x : Located}
    (h : x ∈ locate l ps) : l.offset ≤ x.place.offset := by
  obtain ⟨qs, p, -, -, rfl⟩ := exists_pieces_of_mem_locate h
  show l.offset ≤ (l.read qs).offset
  rw [Location.offset_read]
  exact Nat.le_add_right _ _

theorem exists_pieces_of_locate_eq {l : Location} {ps : List Piece} {before after : List Located}
    {x : Located} (h : locate l ps = before ++ x :: after) :
    ∃ qs p rs, ps = qs ++ p :: rs ∧ before = locate l qs ∧ x = ⟨p.char, l.read qs⟩ ∧
      after = locate ((l.read qs).after p) rs := by
  induction before generalizing l ps with
  | nil =>
    cases ps with
    | nil => cases h
    | cons p ps =>
      obtain ⟨rfl, rfl⟩ := List.cons.inj h
      exact ⟨[], p, ps, rfl, rfl, rfl, rfl⟩
  | cons y before ih =>
    cases ps with
    | nil => cases h
    | cons q ps =>
      obtain ⟨rfl, htail⟩ := List.cons.inj h
      obtain ⟨qs, p, rs, rfl, rfl, rfl, rfl⟩ := ih htail
      exact ⟨q :: qs, p, rs, rfl, rfl, rfl, rfl⟩

/-- The location after decoded octets counts the octets and what they stand for. -/
theorem Location.read_decode (octets : List UInt8) :
    Location.origin.read (decode octets) =
      ⟨octets.length, octets.count 10, (lastLine (characters octets)).length⟩ := by
  have hoffset : (Location.origin.read (decode octets)).offset = octets.length := by
    rw [offset_read, flatMap_octets_decode]
    exact Nat.zero_add _
  have hline : (Location.origin.read (decode octets)).line = octets.count 10 := by
    rw [line_read, ← count_newline_decode]
    exact Nat.zero_add _
  rw [← hoffset, ← hline, characters, ← column_read]

theorem Source.stop_ofOctets (octets : List UInt8) : (ofOctets octets).stop =
    ⟨octets.length, octets.count 10, (lastLine (characters octets)).length⟩ :=
  Location.read_decode octets

/-! ## Order -/

namespace Location

/-- One location stands before another: on an earlier line, or before it on its line. -/
def Precedes (l m : Location) : Prop := l.line < m.line ∨ l.line = m.line ∧ l.column < m.column

theorem precedes_after (l : Location) (p : Piece) : l.Precedes (l.after p) := by
  unfold after
  split
  case isTrue => exact .inl (Nat.lt_succ_self _)
  case isFalse => exact .inr ⟨rfl, Nat.lt_succ_self _⟩

theorem Precedes.trans {l m n : Location} (h : l.Precedes m) (h' : m.Precedes n) :
    l.Precedes n := by
  unfold Precedes at *
  omega

end Location

/-- A relation that leads from each location to the next orders the characters of a source. -/
theorem pairwise_locate {r : Location → Location → Prop}
    (htrans : ∀ {l m n}, r l m → r m n → r l n) {ps : List Piece}
    (hafter : ∀ p ∈ ps, ∀ l, r l (l.after p)) (l : Location) :
    (locate l ps).Pairwise fun x y => r x.place y.place := by
  suffices h : (locate l ps).Pairwise (fun x y => r x.place y.place) ∧
      ∀ x ∈ locate l ps, x.place = l ∨ r l x.place from h.1
  induction ps generalizing l with
  | nil => exact ⟨.nil, List.forall_mem_nil _⟩
  | cons p ps ih =>
    obtain ⟨hp, hps⟩ := List.forall_mem_cons.mp hafter
    obtain ⟨hpairwise, hfrom⟩ := ih hps (l.after p)
    have hbefore : ∀ x ∈ locate (l.after p) ps, r l x.place := by
      intro x hx
      rcases hfrom x hx with hplace | hplace
      · exact hplace ▸ hp l
      · exact htrans (hp l) hplace
    exact ⟨List.pairwise_cons.mpr ⟨hbefore, hpairwise⟩,
      List.forall_mem_cons.mpr ⟨.inl rfl, fun x hx => .inr (hbefore x hx)⟩⟩

theorem pairwise_precedes_locate (l : Location) (ps : List Piece) :
    (locate l ps).Pairwise fun x y => x.place.Precedes y.place :=
  pairwise_locate .trans (fun p _ l => l.precedes_after p) l

/-- Of two elements in an ordered list that neither stands before the other, the same is before. -/
theorem eq_of_append_cons_eq {α : Type} {r : α → α → Prop} {xs ys xs' ys' : List α} {x x' : α}
    (hr : (xs ++ x :: ys).Pairwise r) (h : xs ++ x :: ys = xs' ++ x' :: ys')
    (hx : ¬r x x') (hx' : ¬r x' x) : xs = xs' := by
  have hbefore {zs ws : List α} {z w : α} (hr : (zs ++ z :: ws).Pairwise r) (hw : w ∈ zs) :
      r w z := (List.pairwise_append.mp hr).2.2 w hw z List.mem_cons_self
  rcases List.append_eq_append_iff.mp h with ⟨between, rfl, hrest⟩ | ⟨between, rfl, hrest⟩
  · cases between with
    | nil => exact (List.append_nil _).symm
    | cons y between =>
      obtain ⟨rfl, -⟩ := List.cons.inj hrest
      exact absurd (hbefore (h ▸ hr) (by simp)) hx
  · cases between with
    | nil => exact List.append_nil _
    | cons y between =>
      obtain ⟨rfl, -⟩ := List.cons.inj hrest
      exact absurd (hbefore hr (by simp)) hx'

end Splice
