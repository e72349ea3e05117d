import Splice.Proofs.Text.Utf8

/-!
# What decoding keeps

Decoding loses nothing: the octets of the pieces are the octets that were read
(`flatMap_octets_decode`), a malformed part has one to three of them (`isPart_of_mem_decode`), and
it can be cut wherever a piece ends (`decode_eq_append`). A line feed is never part of another
character, so decoding goes line by line (`decode_newline`).
-/

namespace Splice.Text

namespace Begun

/-! ## Characters that have begun -/

/-- What can have been read of a character: its octets carry the leading bits, and the range of the
next one leaves no overlong form, no surrogate, and nothing past the last code point. -/
inductive Reached : Begun → Prop where
  | two {a n} : a.toNat = n + 0xC0 → 2 ≤ n → n < 32 → Reached ⟨[a], n, 1, 0x80, 0xBF⟩
  | three {a n low high} : a.toNat = n + 0xE0 → n < 16 → 0x80 ≤ low → high ≤ 0xBF →
      (n = 0 → 0xA0 ≤ low) → (n = 13 → high ≤ 0x9F) → Reached ⟨[a], n, 2, low, high⟩
  | threeMore {a b n x} : a.toNat = n + 0xE0 → b.toNat = x + 0x80 → n < 16 → x < 64 →
      (n = 0 → 32 ≤ x) → (n = 13 → x < 32) → Reached ⟨[a, b], n * 64 + x, 1, 0x80, 0xBF⟩
  | four {a n low high} : a.toNat = n + 0xF0 → n < 5 → 0x80 ≤ low → high ≤ 0xBF →
      (n = 0 → 0x90 ≤ low) → (n = 4 → high ≤ 0x8F) → Reached ⟨[a], n, 3, low, high⟩
  | fourMore {a b n x} : a.toNat = n + 0xF0 → b.toNat = x + 0x80 → n < 5 → x < 64 →
      (n = 0 → 16 ≤ x) → (n = 4 → x < 16) → Reached ⟨[a, b], n * 64 + x, 2, 0x80, 0xBF⟩
  | fourMost {a b c n x y} : a.toNat = n + 0xF0 → b.toNat = x + 0x80 → c.toNat = y + 0x80 →
      n < 5 → x < 64 → (n = 0 → 16 ≤ x) → (n = 4 → x < 16) → y < 64 →
      Reached ⟨[a, b, c], (n * 64 + x) * 64 + y, 1, 0x80, 0xBF⟩

variable {s : Begun} {b : UInt8}

theorem toNat_ofNat_of_isValid {v : Nat} (h : v.isValidChar) : (Char.ofNat v).val.toNat = v := by
  rw [Char.ofNat, dif_pos h]
  rfl

theorem Reached.of_lead? (h : lead? b = some s) : Reached s := by
  unfold lead? at h
  dsimp only at h
  split at h
  case isTrue hb =>
    cases h
    exact .two (n := b.toNat - 0xC0) (by omega) (by omega) (by omega)
  split at h
  case isTrue hb =>
    cases h
    exact .three (n := 0) hb (by omega) (by omega) (by omega) (by omega) (by omega)
  split at h
  case isTrue hb =>
    cases h
    exact .three (n := 0xD) hb (by omega) (by omega) (by omega) (by omega) (by omega)
  split at h
  case isTrue hb =>
    cases h
    exact .three (n := b.toNat - 0xE0) (by omega) (by omega) (by omega) (by omega) (by omega)
      (by omega)
  split at h
  case isTrue hb =>
    cases h
    exact .four (n := 0) hb (by omega) (by omega) (by omega) (by omega) (by omega)
  split at h
  case isTrue hb =>
    cases h
    exact .four (n := b.toNat - 0xF0) (by omega) (by omega) (by omega) (by omega) (by omega)
      (by omega)
  split at h
  case isTrue hb =>
    cases h
    exact .four (n := 4) hb (by omega) (by omega) (by omega) (by omega) (by omega)
  case isFalse => cases h

theorem octets_of_lead? (h : lead? b = some s) : s.octets = [b] := by
  unfold lead? at h
  dsimp only at h
  repeat'
    split at h
    case isTrue =>
      cases h
      rfl
  cases h

namespace Reached

theorem low_le (h : Reached s) : 0x80 ≤ s.low := by
  cases h with
  | three _ _ h | four _ _ h => exact h
  | _ => exact Nat.le_refl _

theorem high_le (h : Reached s) : s.high ≤ 0xBF := by
  cases h with
  | three _ _ _ h | four _ _ _ h => exact h
  | _ => exact Nat.le_refl _

theorem length_octets (h : Reached s) : 1 ≤ s.octets.length ∧ s.octets.length ≤ 3 := by
  cases h <;> simp

theorem exists_bits (h : Reached s) (haccepts : s.accepts b = true) :
    ∃ n, n < 64 ∧ b.toNat = n + 0x80 ∧ s.low ≤ n + 0x80 ∧ n + 0x80 ≤ s.high ∧
      s.bitsWith b = s.bits * 64 + n := by
  have hlow := h.low_le
  have hhigh := h.high_le
  obtain ⟨hge, hle⟩ : s.low ≤ b.toNat ∧ b.toNat ≤ s.high := by simpa [accepts] using haccepts
  exact ⟨b.toNat - 0x80, by omega, by omega, by omega, by omega, rfl⟩

theorem more (h : Reached s) (haccepts : s.accepts b = true) (hdue : s.due ≠ 1) :
    Reached ⟨s.octets ++ [b], s.bitsWith b, s.due - 1, 0x80, 0xBF⟩ := by
  obtain ⟨x, hx, hb, hlow, hhigh, hbits⟩ := h.exists_bits haccepts
  rw [hbits]
  cases h with
  | three ha hn _ _ hfirst hlast =>
    dsimp only at hlow hhigh ⊢
    exact .threeMore ha hb hn hx (by omega) (by omega)
  | four ha hn _ _ hfirst hlast =>
    dsimp only at hlow hhigh ⊢
    exact .fourMore ha hb hn hx (by omega) (by omega)
  | fourMore ha hb' hn hx' hfirst hlast => exact .fourMost ha hb' hb hn hx' hfirst hlast hx
  | two | threeMore | fourMost => exact absurd rfl hdue

theorem ofNat_eq {n base : Nat} (h : b.toNat = n + base) : UInt8.ofNat (n + base) = b := by
  rw [← h, UInt8.ofNat_toNat]

/-- The last octet completes the encoding of a character. -/
theorem last (h : Reached s) (haccepts : s.accepts b = true) (hdue : s.due = 1) :
    String.utf8EncodeChar (Char.ofNat (s.bitsWith b)) = s.octets ++ [b] := by
  obtain ⟨y, hy, hb, -, -, hbits⟩ := h.exists_bits haccepts
  rw [hbits]
  unfold String.utf8EncodeChar
  cases h with
  | @two a n ha hn hn' =>
    dsimp only
    have hlead : (n * 64 + y) / 64 % 32 = n := by omega
    have hlast : (n * 64 + y) % 64 = y := by omega
    rw [toNat_ofNat_of_isValid (.inl (by omega)), if_neg (by omega), if_pos (by omega), hlead,
      hlast, ofNat_eq ha, ofNat_eq hb]
    rfl
  | @threeMore a b' n x ha hb' hn hx hfirst hlast =>
    dsimp only
    have hvalid : ((n * 64 + x) * 64 + y).isValidChar := by
      unfold Nat.isValidChar
      omega
    have hlead : ((n * 64 + x) * 64 + y) / 4096 % 16 = n := by omega
    have hmiddle : ((n * 64 + x) * 64 + y) / 64 % 64 = x := by omega
    have hlast : ((n * 64 + x) * 64 + y) % 64 = y := by omega
    rw [toNat_ofNat_of_isValid hvalid, if_neg (by omega), if_neg (by omega), if_pos (by omega),
      hlead, hmiddle, hlast, ofNat_eq ha, ofNat_eq hb', ofNat_eq hb]
    rfl
  | @fourMost a b' c n x z ha hb' hc hn hx hfirst hlast hz =>
    dsimp only
    have hvalid : (((n * 64 + x) * 64 + z) * 64 + y).isValidChar := by
      unfold Nat.isValidChar
      omega
    have hlead : (((n * 64 + x) * 64 + z) * 64 + y) / 262144 % 8 = n := by omega
    have hsecond : (((n * 64 + x) * 64 + z) * 64 + y) / 4096 % 64 = x := by omega
    have hthird : (((n * 64 + x) * 64 + z) * 64 + y) / 64 % 64 = z := by omega
    have hlast : (((n * 64 + x) * 64 + z) * 64 + y) % 64 = y := by omega
    rw [toNat_ofNat_of_isValid hvalid, if_neg (by omega), if_neg (by omega), if_neg (by omega),
      hlead, hsecond, hthird, hlast, ofNat_eq ha, ofNat_eq hb', ofNat_eq hc, ofNat_eq hb]
    rfl
  | three | four | fourMore => cases hdue

end Reached

end Begun

/-! ## What an octet gives -/

/-- What an octet gives after a character that may have begun: the pieces it completes, and the
character that has begun after it. -/
inductive Feeds : Option Begun → UInt8 → List Piece → Option Begun → Prop where
  | ascii {b} : b.toNat < 0x80 → Feeds none b [.encoded (Char.ofNat b.toNat)] none
  | lead {b s} : 0x80 ≤ b.toNat → Begun.lead? b = some s → Feeds none b [] (some s)
  | stray {b} : 0x80 ≤ b.toNat → Begun.lead? b = none → Feeds none b [.malformed [b]] none
  | last {s b} : s.accepts b = true → s.due = 1 →
      Feeds (some s) b [.encoded (Char.ofNat (s.bitsWith b))] none
  | more {s b} : s.accepts b = true → s.due ≠ 1 →
      Feeds (some s) b [] (some ⟨s.octets ++ [b], s.bitsWith b, s.due - 1, 0x80, 0xBF⟩)
  | broken {s b ps s'} : s.accepts b = false → Feeds none b ps s' →
      Feeds (some s) b (.malformed s.octets :: ps) s'

theorem feeds_openWith (b : UInt8) : Feeds none b (openWith b).1 (openWith b).2 := by
  unfold openWith
  split
  case isTrue hb => exact .ascii hb
  case isFalse hb =>
    rw [Nat.not_lt] at hb
    split
    case h_1 s hs => exact .lead hb hs
    case h_2 hs => exact .stray hb hs

theorem feeds_feed (s : Option Begun) (b : UInt8) : Feeds s b (feed s b).1 (feed s b).2 := by
  cases s with
  | none => exact feeds_openWith b
  | some s =>
    unfold feed
    dsimp only
    split
    case isTrue hb =>
      split
      case isTrue hdue => exact .last hb hdue
      case isFalse hdue => exact .more hb hdue
    case isFalse hb => exact .broken (Bool.eq_false_iff.mpr hb) (feeds_openWith b)

def begun : Option Begun → List UInt8
  | none => []
  | some s => s.octets

/-- A character that may have begun is one that can be read. -/
def IsReached : Option Begun → Prop
  | none => True
  | some s => s.Reached

/-- A piece that octets can decode to: a malformed part has one to three of them. -/
def Piece.IsPart : Piece → Prop
  | encoded _ => True
  | malformed octets => 1 ≤ octets.length ∧ octets.length ≤ 3

theorem Piece.IsPart.size_pos {p : Piece} (h : p.IsPart) : 0 < p.size := by
  cases p with
  | encoded c => exact c.utf8Size_pos
  | malformed octets => exact h.1

theorem utf8EncodeChar_ascii {b : UInt8} (hb : b.toNat < 0x80) :
    String.utf8EncodeChar (Char.ofNat b.toNat) = [b] := by
  unfold String.utf8EncodeChar
  dsimp only
  rw [Begun.toNat_ofNat_of_isValid (.inl (by omega)), if_pos (by omega), UInt8.ofNat_toNat]

namespace Feeds

variable {s s' : Option Begun} {b : UInt8} {ps : List Piece}

theorem isReached (h : Feeds s b ps s') (hs : IsReached s) : IsReached s' := by
  induction h with
  | ascii | stray | last => trivial
  | lead _ ht => exact .of_lead? ht
  | more hb hdue => exact hs.more hb hdue
  | broken _ _ ih => exact ih trivial

theorem flatMap_octets (h : Feeds s b ps s') (hs : IsReached s) :
    ps.flatMap Piece.octets ++ begun s' = begun s ++ [b] := by
  induction h with
  | @ascii b hb =>
    simp [Piece.octets, begun, utf8EncodeChar_ascii hb]
  | @lead b s _ ht =>
    show s.octets = [b]
    exact Begun.octets_of_lead? ht
  | stray => rfl
  | @last s b hb hdue =>
    simp [Piece.octets, begun, hs.last hb hdue]
  | more => rfl
  | @broken s b ps s' _ _ ih =>
    rw [List.flatMap_cons, List.append_assoc, ih trivial]
    rfl

theorem isPart (h : Feeds s b ps s') (hs : IsReached s) : ∀ p ∈ ps, p.IsPart := by
  induction h with
  | ascii | last => simp [Piece.IsPart]
  | stray => simp [Piece.IsPart]
  | lead | more => simp
  | broken _ _ ih => exact List.forall_mem_cons.mpr ⟨hs.length_octets, ih trivial⟩

theorem count_newline (h : Feeds s b ps s') (hs : IsReached s) :
    (ps.map Piece.char).count '\n' = [b].count 10 := by
  have hhigh {b : UInt8} (hb : 0x80 ≤ b.toNat) : [b].count 10 = 0 := by
    apply List.count_eq_zero_of_not_mem
    rw [List.mem_singleton]
    rintro rfl
    exact absurd hb (by decide)
  induction h with
  | @ascii b hb =>
    by_cases hten : b = 10
    · rw [hten]
      rfl
    · have hne : Char.ofNat b.toNat ≠ '\n' := by
        intro h
        have hencode := utf8EncodeChar_ascii hb
        rw [h] at hencode
        exact hten (List.singleton_inj.mp hencode).symm
      simp [Piece.char, hne, hten]
  | lead hb => exact (hhigh hb).symm
  | stray hb => exact (hhigh hb).symm
  | @last s b haccepts hdue =>
    obtain ⟨n, -, hb, -⟩ := hs.exists_bits haccepts
    have hne : Char.ofNat (s.bitsWith b) ≠ '\n' := by
      intro h
      have hencode := hs.last haccepts hdue
      rw [h] at hencode
      have hlength := congrArg List.length hencode
      rw [List.length_append] at hlength
      have hoctets := hs.length_octets
      change 1 = s.octets.length + 1 at hlength
      omega
    rw [hhigh (by omega)]
    simp [Piece.char, hne]
  | more haccepts =>
    obtain ⟨n, -, hb, -⟩ := hs.exists_bits haccepts
    exact (hhigh (by omega)).symm
  | @broken s b ps s' _ _ ih =>
    have hne : (Piece.malformed s.octets).char ≠ '\n' := by
      show '\uFFFD' ≠ '\n'
      decide
    rw [List.map_cons, List.count_cons_of_ne hne]
    exact ih trivial

end Feeds

/-! ## What all octets give -/

theorem decodeFrom_cons (s : Option Begun) (b : UInt8) (bs : List UInt8) :
    decodeFrom s (b :: bs) = (feed s b).1 ++ decodeFrom (feed s b).2 bs := by
  cases s <;> rfl

theorem flatMap_octets_decodeFrom {s : Option Begun} (hs : IsReached s) (bs : List UInt8) :
    (decodeFrom s bs).flatMap Piece.octets = begun s ++ bs := by
  induction bs generalizing s with
  | nil => cases s <;> simp [decodeFrom, begun, Piece.octets]
  | cons b bs ih =>
    have hfeeds := feeds_feed s b
    rw [decodeFrom_cons, List.flatMap_append, ih (hfeeds.isReached hs), ← List.append_assoc,
      hfeeds.flatMap_octets hs, List.append_assoc]
    rfl

theorem isPart_decodeFrom {s : Option Begun} (hs : IsReached s) (bs : List UInt8) :
    ∀ p ∈ decodeFrom s bs, p.IsPart := by
  induction bs generalizing s with
  | nil =>
    cases s with
    | none => simp [decodeFrom]
    | some s => exact List.forall_mem_singleton.mpr hs.length_octets
  | cons b bs ih =>
    have hfeeds := feeds_feed s b
    rw [decodeFrom_cons]
    exact List.forall_mem_append.mpr ⟨hfeeds.isPart hs, ih (hfeeds.isReached hs)⟩

theorem count_newline_decodeFrom {s : Option Begun} (hs : IsReached s) (bs : List UInt8) :
    ((decodeFrom s bs).map Piece.char).count '\n' = bs.count 10 := by
  induction bs generalizing s with
  | nil => cases s <;> simp [decodeFrom, Piece.char]
  | cons b bs ih =>
    have hfeeds := feeds_feed s b
    rw [decodeFrom_cons, List.map_append, List.count_append, ih (hfeeds.isReached hs),
      hfeeds.count_newline hs, ← List.count_append, List.singleton_append]

theorem decodeFrom_broken {s : Begun} {b : UInt8} (h : s.accepts b = false) (bs : List UInt8) :
    decodeFrom (some s) (b :: bs) = .malformed s.octets :: decode (b :: bs) := by
  rw [decodeFrom_cons, feed, h]
  rfl

/-- A line feed ends a character that has begun. -/
theorem decodeFrom_newline {s : Option Begun} (hs : IsReached s) (bs cs : List UInt8) :
    decodeFrom s (bs ++ 10 :: cs) = decodeFrom s bs ++ .encoded '\n' :: decode cs := by
  induction bs generalizing s with
  | nil =>
    cases s with
    | none => rfl
    | some s =>
      have hlow := hs.low_le
      have haccepts : s.accepts 10 = false := by
        have h10 : (10 : UInt8).toNat = 10 := rfl
        unfold Begun.accepts
        rw [h10, decide_eq_false (by omega), Bool.false_and]
      rw [List.nil_append, decodeFrom_broken haccepts]
      rfl
  | cons b bs ih =>
    rw [List.cons_append, decodeFrom_cons, decodeFrom_cons, ih ((feeds_feed s b).isReached hs),
      List.append_assoc]

/-- An octet that breaks no character off completes one piece, or leaves a character begun. -/
theorem Feeds.completes_or {s s' : Option Begun} {b : UInt8} {ps : List Piece}
    (h : Feeds s b ps s') (hs : ∀ t, s = some t → t.accepts b = true) :
    (∃ p, ps = [p] ∧ s' = none) ∨ ps = [] ∧ s' ≠ none := by
  cases h with
  | ascii | stray | last => exact .inl ⟨_, rfl, rfl⟩
  | lead | more => exact .inr ⟨rfl, Option.some_ne_none _⟩
  | broken h => exact absurd ((hs _ rfl).symm.trans h) (Bool.noConfusion ·)

/-- Octets can be cut where a piece ends. -/
theorem decodeFrom_eq_append {s : Option Begun} {bs : List UInt8} {ps qs : List Piece}
    (h : decodeFrom s bs = ps ++ qs) (hs : s = none ∨ ps ≠ []) :
    ∃ cs ds, bs = cs ++ ds ∧ decodeFrom s cs = ps ∧ decode ds = qs := by
  induction bs generalizing s ps with
  | nil =>
    cases s with
    | none =>
      obtain ⟨rfl, rfl⟩ := List.append_eq_nil_iff.mp h.symm
      exact ⟨[], [], rfl, rfl, rfl⟩
    | some t =>
      obtain ⟨p, ps, rfl⟩ := List.exists_cons_of_ne_nil (hs.resolve_left (Option.some_ne_none t))
      obtain ⟨rfl, htail⟩ := List.cons.inj h
      obtain ⟨rfl, rfl⟩ := List.append_eq_nil_iff.mp htail.symm
      exact ⟨[], [], rfl, rfl, rfl⟩
  | cons b bs ih =>
    -- a cut after the first octet, where it breaks no character off
    have hafter {s : Option Begun} {p : Piece} {ps : List Piece}
        (h : decodeFrom s (b :: bs) = p :: ps ++ qs)
        (hs : ∀ t, s = some t → t.accepts b = true) :
        ∃ cs ds, b :: bs = cs ++ ds ∧ decodeFrom s cs = p :: ps ∧ decode ds = qs := by
      rw [decodeFrom_cons] at h
      rcases (feeds_feed s b).completes_or hs with ⟨p', hp, hnone⟩ | ⟨hnil, hsome⟩
      · rw [hp, hnone] at h
        obtain ⟨rfl, htail⟩ := List.cons.inj h
        obtain ⟨cs, ds, rfl, hcs, hds⟩ := ih htail (.inl rfl)
        refine ⟨b :: cs, ds, rfl, ?_, hds⟩
        rw [decodeFrom_cons, hp, hnone, hcs]
        rfl
      · rw [hnil] at h
        obtain ⟨cs, ds, rfl, hcs, hds⟩ := ih h (.inr (List.cons_ne_nil _ _))
        refine ⟨b :: cs, ds, rfl, ?_, hds⟩
        rw [decodeFrom_cons, hnil, hcs]
        rfl
    have hnone {ps : List Piece} (h : decode (b :: bs) = ps ++ qs) :
        ∃ cs ds, b :: bs = cs ++ ds ∧ decode cs = ps ∧ decode ds = qs := by
      cases ps with
      | nil => exact ⟨[], b :: bs, rfl, rfl, h⟩
      | cons p ps => exact hafter h (by simp)
    cases s with
    | none => exact hnone h
    | some t =>
      obtain ⟨p, ps, rfl⟩ := List.exists_cons_of_ne_nil (hs.resolve_left (Option.some_ne_none t))
      cases haccepts : t.accepts b with
      | true => exact hafter h (by rintro _ ⟨⟩; exact haccepts)
      | false =>
        rw [decodeFrom_broken haccepts] at h
        obtain ⟨rfl, htail⟩ := List.cons.inj h
        obtain ⟨cs, ds, hbs, rfl, rfl⟩ := hnone htail
        refine ⟨cs, ds, hbs, ?_, rfl⟩
        cases cs with
        | nil => rfl
        | cons c cs =>
          obtain ⟨rfl, -⟩ := List.cons.inj hbs
          exact decodeFrom_broken haccepts cs

/-! ## Decoding -/

theorem flatMap_octets_decode (bs : List UInt8) : (decode bs).flatMap Piece.octets = bs :=
  flatMap_octets_decodeFrom (s := none) trivial bs

theorem isPart_of_mem_decode {bs : List UInt8} {p : Piece} (h : p ∈ decode bs) : p.IsPart :=
  isPart_decodeFrom (s := none) trivial bs p h

theorem count_newline_decode (bs : List UInt8) : (characters bs).count '\n' = bs.count 10 :=
  count_newline_decodeFrom (s := none) trivial bs

theorem decode_newline (bs cs : List UInt8) :
    decode (bs ++ 10 :: cs) = decode bs ++ .encoded '\n' :: decode cs :=
  decodeFrom_newline (s := none) trivial bs cs

theorem decode_eq_append {bs : List UInt8} {ps qs : List Piece} (h : decode bs = ps ++ qs) :
    ∃ cs ds, bs = cs ++ ds ∧ decode cs = ps ∧ decode ds = qs :=
  decodeFrom_eq_append h (.inl rfl)

end Splice.Text
