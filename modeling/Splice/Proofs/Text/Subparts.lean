import Splice.Proofs.Text.Decoding

/-!
# Maximal subparts

Which octets a replacement character stands for. Where octets begin with no encoded character, the
malformed part goes on as long as it can be the beginning of one, and it is a single octet if it
cannot (`IsMaximalSubpart`). Octets can be cut into encoded characters and such parts in one way
(`Segments`), and that is how they decode (`segments_iff`).
-/

namespace Splice.Text

def IsInitial (octets : List UInt8) : Prop := ∃ c, octets <+: String.utf8EncodeChar c

/-- A malformed part before some octets. No character is encoded where it begins; it is the longest
beginning of an encoded character there, or a single octet. -/
structure IsMaximalSubpart (part rest : List UInt8) : Prop where
  ne_nil : part ≠ []
  unencoded : ∀ c, ¬String.utf8EncodeChar c <+: part ++ rest
  initial : part.length = 1 ∨ IsInitial part
  longest : ∀ front, front <+: part ++ rest → part.length < front.length → ¬IsInitial front

/-- Octets that are encoded characters and maximal subparts, and the pieces that these are. -/
inductive Segments : List UInt8 → List Piece → Prop where
  | nil : Segments [] []
  | encoded {c rest ps} : Segments rest ps →
      Segments (String.utf8EncodeChar c ++ rest) (.encoded c :: ps)
  | malformed {part rest ps} : IsMaximalSubpart part rest → Segments rest ps →
      Segments (part ++ rest) (.malformed part :: ps)

theorem IsMaximalSubpart.unique {part rest part' rest' : List UInt8}
    (h : IsMaximalSubpart part rest) (h' : IsMaximalSubpart part' rest')
    (heq : part ++ rest = part' ++ rest') : part = part' := by
  have hle {part rest part' rest' : List UInt8} (h : IsMaximalSubpart part rest)
      (h' : IsMaximalSubpart part' rest') (heq : part ++ rest = part' ++ rest') :
      part'.length ≤ part.length := by
    have hprefix : part' <+: part ++ rest := heq ▸ List.prefix_append part' rest'
    rcases h'.initial with hone | hinitial
    · rw [hone]
      exact List.length_pos_iff.mpr h.ne_nil
    · exact Nat.le_of_not_lt fun hlt => h.longest part' hprefix hlt hinitial
  exact (List.append_inj heq (Nat.le_antisymm (hle h' h heq.symm) (hle h h' heq))).1

/-! ## Characters that have begun -/

namespace Begun

variable {s : Begun} {b : UInt8}

/-- What can have been read of a character, as decoding reads it: some octet may follow. -/
structure IsOpen (s : Begun) : Prop where
  reached : s.Reached
  low_le_high : s.low ≤ s.high
  decode_append : ∀ bs, decode (s.octets ++ bs) = decodeFrom (some s) bs

theorem low_le_high_of_lead? (h : lead? b = some s) : s.low ≤ s.high := by
  unfold lead? at h
  dsimp only at h
  repeat'
    split at h
    case isTrue =>
      cases h
      dsimp only
      decide
  cases h

theorem IsOpen.of_lead? (hb : 0x80 ≤ b.toNat) (h : lead? b = some s) : IsOpen s where
  reached := .of_lead? h
  low_le_high := low_le_high_of_lead? h
  decode_append bs := by
    rw [octets_of_lead? h]
    exact decodeFrom_lead hb h bs

theorem IsOpen.more (h : IsOpen s) (haccepts : s.accepts b = true) (hdue : s.due ≠ 1) :
    IsOpen ⟨s.octets ++ [b], s.bitsWith b, s.due - 1, 0x80, 0xBF⟩ where
  reached := h.reached.more haccepts hdue
  low_le_high := show 0x80 ≤ 0xBF by decide
  decode_append bs := by
    rw [List.append_assoc, List.singleton_append, h.decode_append, decodeFrom_cons, feed,
      if_pos haccepts, if_neg hdue]
    rfl

theorem Reached.due_pos (h : Reached s) : 0 < s.due := by
  cases h <;> exact Nat.succ_pos _

theorem IsOpen.accepts_low (h : IsOpen s) : s.accepts (UInt8.ofNat s.low) = true := by
  have hhigh := h.reached.high_le
  have hrange := h.low_le_high
  have hlow : (UInt8.ofNat s.low).toNat = s.low := toNat_ofNat_of_lt (by omega)
  simp [accepts, hlow, hrange]

/-- A character that has begun can be completed, with the least octet that may follow each time. -/
theorem IsOpen.isInitial (h : IsOpen s) : IsInitial s.octets := by
  obtain ⟨n, hdue⟩ : ∃ n, s.due = n + 1 := Nat.exists_eq_add_one.mpr h.reached.due_pos
  induction n generalizing s with
  | zero => exact ⟨_, h.reached.last h.accepts_low hdue ▸ List.prefix_append _ _⟩
  | succ n ih =>
    have hne : s.due ≠ 1 := by omega
    obtain ⟨c, hc⟩ := ih (h.more h.accepts_low hne) (by simp [hdue])
    exact ⟨c, (List.prefix_append _ _).trans hc⟩

end Begun

/-! ## Where decoding breaks off -/

/-- A part that decoding takes to be malformed, before some octets: an octet that begins no
character, or a character that has begun and that the next octet does not go on with. -/
inductive Breaks : List UInt8 → List UInt8 → Prop where
  | stray {b rest} : 0x80 ≤ b.toNat → Begun.lead? b = none → Breaks [b] rest
  | ended {s} : Begun.IsOpen s → Breaks s.octets []
  | broken {s b rest} : Begun.IsOpen s → s.accepts b = false → Breaks s.octets (b :: rest)

namespace Breaks

variable {part rest rest' : List UInt8}

theorem ne_nil (h : Breaks part rest) : part ≠ [] := by
  cases h with
  | stray => exact List.cons_ne_nil _ _
  | ended h | broken h => exact List.length_pos_iff.mp h.reached.length_octets.1

/-- Only the next octet decides whether decoding breaks off. -/
theorem decode_append (h : Breaks part rest) (hnext : rest'.head? = rest.head?) :
    decode (part ++ rest') = .malformed part :: decode rest' := by
  cases h with
  | stray hb hlead =>
    rw [List.singleton_append, decode, decodeFrom_cons, feed, openWith,
      if_neg (Nat.not_lt.mpr hb), hlead]
    rfl
  | ended h =>
    rw [List.head?_eq_none_iff.mp hnext, h.decode_append]
    rfl
  | broken h haccepts =>
    obtain ⟨more, rfl⟩ := List.head?_eq_some_iff.mp hnext
    rw [h.decode_append, decodeFrom_broken haccepts]

theorem isMaximalSubpart (h : Breaks part rest) : IsMaximalSubpart part rest where
  ne_nil := h.ne_nil
  unencoded := by
    rintro c ⟨more, hmore⟩
    have hdecode := h.decode_append rfl
    rw [← hmore, decode, decodeFrom_utf8EncodeChar] at hdecode
    cases hdecode
  initial := by
    cases h with
    | stray => exact .inl rfl
    | ended h | broken h => exact .inr (h.isInitial)
  longest := by
    -- the character would decode, and with the same next octet the part does not
    rintro front hfront hlength ⟨c, more, hc⟩
    obtain ⟨after, rfl⟩ : part <+: front :=
      List.prefix_of_prefix_length_le (List.prefix_append _ _) hfront (Nat.le_of_lt hlength)
    have hafter : after <+: rest := (List.prefix_append_right_inj part).mp hfront
    obtain ⟨b, after, rfl⟩ : ∃ b bs, after = b :: bs := by
      refine List.exists_cons_of_ne_nil ?_
      rintro rfl
      rw [List.append_nil] at hlength
      exact Nat.lt_irrefl _ hlength
    obtain ⟨others, rfl⟩ := hafter
    have hdecode : decode (part ++ b :: (after ++ more)) =
        .malformed part :: decode (b :: (after ++ more)) := h.decode_append rfl
    have hchar : decode (String.utf8EncodeChar c) = [.encoded c] := by
      have hdecode := decodeFrom_utf8EncodeChar c []
      rwa [List.append_nil] at hdecode
    rw [← List.cons_append, ← List.append_assoc, hc, hchar] at hdecode
    cases hdecode

end Breaks

theorem breaks_of_decodeFrom {s : Begun} (hs : s.IsOpen) {bs part : List UInt8} {ps : List Piece}
    (h : decodeFrom (some s) bs = .malformed part :: ps) :
    ∃ rest, s.octets ++ bs = part ++ rest ∧ Breaks part rest := by
  induction bs generalizing s with
  | nil =>
    obtain ⟨hpart, -⟩ := List.cons.inj h
    cases hpart
    exact ⟨[], rfl, .ended hs⟩
  | cons b bs ih =>
    cases haccepts : s.accepts b with
    | false =>
      rw [decodeFrom_broken haccepts] at h
      obtain ⟨hpart, -⟩ := List.cons.inj h
      cases hpart
      exact ⟨b :: bs, rfl, .broken hs haccepts⟩
    | true =>
      by_cases hdue : s.due = 1
      · rw [decodeFrom_cons, feed, if_pos haccepts, if_pos hdue] at h
        cases h
      · rw [decodeFrom_cons, feed, if_pos haccepts, if_neg hdue] at h
        obtain ⟨rest, heq, hbreaks⟩ := ih (hs.more haccepts hdue) h
        exact ⟨rest, by simpa using heq, hbreaks⟩

/-- A malformed part that octets begin with is where decoding breaks off. -/
theorem breaks_of_decode {octets part : List UInt8} {ps : List Piece}
    (h : decode octets = .malformed part :: ps) :
    ∃ rest, octets = part ++ rest ∧ Breaks part rest := by
  cases octets with
  | nil => cases h
  | cons b bs =>
    rw [decode, decodeFrom_cons] at h
    have hfeeds := feeds_feed none b
    generalize (feed none b).1 = qs at hfeeds h
    generalize (feed none b).2 = s at hfeeds h
    cases hfeeds with
    | ascii => cases h
    | lead hb hlead =>
      have hopen := Begun.IsOpen.of_lead? hb hlead
      obtain ⟨rest, heq, hbreaks⟩ := breaks_of_decodeFrom hopen h
      rw [Begun.octets_of_lead? hlead] at heq
      exact ⟨rest, heq, hbreaks⟩
    | stray hb hlead =>
      obtain ⟨hpart, -⟩ := List.cons.inj h
      cases hpart
      exact ⟨bs, rfl, .stray hb hlead⟩

/-! ## Decoding -/

theorem segments_decode {octets : List UInt8} {ps : List Piece} (h : decode octets = ps) :
    Segments octets ps := by
  induction ps generalizing octets with
  | nil =>
    have hoctets := flatMap_octets_decode octets
    rw [h] at hoctets
    obtain rfl : [] = octets := hoctets
    exact .nil
  | cons p ps ih =>
    have hfirst : decode octets = [p] ++ ps := h
    obtain ⟨own, rest, rfl, hown, hrest⟩ := decode_eq_append hfirst
    have hoctets := flatMap_octets_decode own
    rw [hown, List.flatMap_singleton] at hoctets
    subst hoctets
    cases p with
    | encoded c => exact .encoded (ih hrest)
    | malformed part =>
      obtain ⟨rest', heq, hbreaks⟩ := breaks_of_decode h
      obtain rfl : rest = rest' := List.append_cancel_left heq
      exact .malformed hbreaks.isMaximalSubpart (ih hrest)

theorem decode_of_isMaximalSubpart {part rest : List UInt8} (h : IsMaximalSubpart part rest) :
    decode (part ++ rest) = .malformed part :: decode rest := by
  cases hdecode : decode (part ++ rest) with
  | nil =>
    have hoctets := flatMap_octets_decode (part ++ rest)
    rw [hdecode] at hoctets
    exact absurd (List.append_eq_nil_iff.mp hoctets.symm).1 h.ne_nil
  | cons p ps =>
    cases p with
    | encoded c =>
      have hoctets := flatMap_octets_decode (part ++ rest)
      rw [hdecode, List.flatMap_cons] at hoctets
      exact absurd ⟨_, hoctets⟩ (h.unencoded c)
    | malformed part' =>
      obtain ⟨rest', heq, hbreaks⟩ := breaks_of_decode hdecode
      obtain rfl := h.unique hbreaks.isMaximalSubpart heq
      obtain rfl : rest = rest' := List.append_cancel_left heq
      rw [← hdecode, hbreaks.decode_append rfl]

/-- **Decoding.** The pieces that octets decode to are their only cut into encoded characters and
maximal subparts. -/
theorem segments_iff {octets : List UInt8} {ps : List Piece} :
    Segments octets ps ↔ decode octets = ps := by
  refine ⟨fun h => ?_, segments_decode⟩
  induction h with
  | nil => rfl
  | encoded _ ih => rw [decode, decodeFrom_utf8EncodeChar, ← decode, ih]
  | malformed hpart _ ih => rw [decode_of_isMaximalSubpart hpart, ih]

end Splice.Text
