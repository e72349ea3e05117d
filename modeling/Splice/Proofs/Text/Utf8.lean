import Splice.Source

/-!
# Decoding what was encoded

The octets of a text decode to the characters of the text, each one a piece (`decode_encode`). The
first octet of a character says how many octets are due, and leaves a range to the second that the
second lies in (`lead?_three`, `lead?_four`).
-/

namespace Splice.Text

theorem toNat_ofNat_of_lt {n : Nat} (h : n < 256) : (UInt8.ofNat n).toNat = n := by
  rw [UInt8.toNat_ofNat']
  exact Nat.mod_eq_of_lt h

/-! ## One octet -/

theorem decodeFrom_ascii {b : UInt8} (h : b.toNat < 0x80) (bs : List UInt8) :
    decodeFrom none (b :: bs) = .encoded (Char.ofNat b.toNat) :: decodeFrom none bs := by
  rw [decodeFrom, feed, openWith, if_pos h]
  rfl

theorem decodeFrom_lead {b : UInt8} {s : Begun} (h : 0x80 ≤ b.toNat) (hs : Begun.lead? b = some s)
    (bs : List UInt8) : decodeFrom none (b :: bs) = decodeFrom (some s) bs := by
  rw [decodeFrom, feed, openWith, if_neg (Nat.not_lt.mpr h), hs]
  rfl

theorem accepts_continuation {s : Begun} {n : Nat} (h : n < 64) (hlow : s.low ≤ n + 0x80)
    (hhigh : n + 0x80 ≤ s.high) : s.accepts (UInt8.ofNat (n + 0x80)) = true := by
  unfold Begun.accepts
  simp only [toNat_ofNat_of_lt (show n + 0x80 < 256 by omega), Bool.and_eq_true, decide_eq_true_eq]
  exact ⟨hlow, hhigh⟩

theorem bitsWith_continuation (s : Begun) {n : Nat} (h : n < 64) :
    s.bitsWith (UInt8.ofNat (n + 0x80)) = s.bits * 64 + n := by
  have hoctet : (UInt8.ofNat (n + 0x80)).toNat - 0x80 = n := by
    rw [toNat_ofNat_of_lt (by omega)]
    omega
  unfold Begun.bitsWith
  rw [hoctet]

/-- An octet in range goes on with the character and carries six bits. -/
theorem decodeFrom_more {octets : List UInt8} {bits due low high n : Nat} (h : n < 64)
    (hlow : low ≤ n + 0x80) (hhigh : n + 0x80 ≤ high) (bs : List UInt8) :
    decodeFrom (some ⟨octets, bits, due + 2, low, high⟩) (UInt8.ofNat (n + 0x80) :: bs) =
      decodeFrom (some ⟨octets ++ [UInt8.ofNat (n + 0x80)], bits * 64 + n, due + 1, 0x80, 0xBF⟩)
        bs := by
  rw [decodeFrom, feed, if_pos (accepts_continuation h hlow hhigh), if_neg (Nat.succ_succ_ne_one _),
    bitsWith_continuation _ h]
  rfl

theorem decodeFrom_last {octets : List UInt8} {bits low high n : Nat} (h : n < 64)
    (hlow : low ≤ n + 0x80) (hhigh : n + 0x80 ≤ high) (bs : List UInt8) :
    decodeFrom (some ⟨octets, bits, 1, low, high⟩) (UInt8.ofNat (n + 0x80) :: bs) =
      .encoded (Char.ofNat (bits * 64 + n)) :: decodeFrom none bs := by
  rw [decodeFrom, feed, if_pos (accepts_continuation h hlow hhigh), if_pos rfl,
    bitsWith_continuation _ h]
  rfl

/-! ## The first octet of a character -/

theorem lead?_two {n : Nat} (hlow : 2 ≤ n) (hhigh : n < 32) :
    Begun.lead? (UInt8.ofNat (n + 0xC0)) = some ⟨[UInt8.ofNat (n + 0xC0)], n, 1, 0x80, 0xBF⟩ := by
  unfold Begun.lead?
  simp only [toNat_ofNat_of_lt (show n + 0xC0 < 256 by omega)]
  have hbits : n + 0xC0 - 0xC0 = n := by omega
  rw [if_pos (by omega), hbits]

/-- Three octets are due for the code points below `0x10000` that need them, and no others: no
overlong form and no surrogate lies in the range of the second octet. -/
theorem lead?_three {v : Nat} (hlow : 0x800 ≤ v) (hhigh : v < 0x10000)
    (hsurrogate : v < 0xD800 ∨ 0xDFFF < v) :
    ∃ low high, Begun.lead? (UInt8.ofNat (v / 4096 + 0xE0)) =
        some ⟨[UInt8.ofNat (v / 4096 + 0xE0)], v / 4096, 2, low, high⟩ ∧
      low ≤ v / 64 % 64 + 0x80 ∧ v / 64 % 64 + 0x80 ≤ high := by
  unfold Begun.lead?
  simp only [toNat_ofNat_of_lt (show v / 4096 + 0xE0 < 256 by omega)]
  rw [if_neg (by omega)]
  by_cases hfirst : v / 4096 = 0
  · rw [hfirst, if_pos (by omega)]
    exact ⟨_, _, rfl, by omega, by omega⟩
  by_cases hlast : v / 4096 = 13
  · rw [hlast, if_neg (by omega), if_pos (by omega)]
    exact ⟨_, _, rfl, by omega, by omega⟩
  · rw [if_neg (by omega), if_neg (by omega), if_pos (by omega), Nat.add_sub_cancel]
    exact ⟨_, _, rfl, by omega, by omega⟩

/-- Four octets are due for the code points from `0x10000` on, and no others: no overlong form and
nothing past the last code point lies in the range of the second octet. -/
theorem lead?_four {v : Nat} (hlow : 0x10000 ≤ v) (hhigh : v < 0x110000) :
    ∃ low high, Begun.lead? (UInt8.ofNat (v / 262144 + 0xF0)) =
        some ⟨[UInt8.ofNat (v / 262144 + 0xF0)], v / 262144, 3, low, high⟩ ∧
      low ≤ v / 4096 % 64 + 0x80 ∧ v / 4096 % 64 + 0x80 ≤ high := by
  unfold Begun.lead?
  simp only [toNat_ofNat_of_lt (show v / 262144 + 0xF0 < 256 by omega)]
  rw [if_neg (by omega), if_neg (by omega), if_neg (by omega), if_neg (by omega)]
  by_cases hfirst : v / 262144 = 0
  · rw [hfirst, if_pos (by omega)]
    exact ⟨_, _, rfl, by omega, by omega⟩
  by_cases hlast : v / 262144 = 4
  · rw [hlast, if_neg (by omega), if_neg (by omega), if_pos (by omega)]
    exact ⟨_, _, rfl, by omega, by omega⟩
  · rw [if_neg (by omega), if_pos (by omega), Nat.add_sub_cancel]
    exact ⟨_, _, rfl, by omega, by omega⟩

/-! ## Characters and texts -/

theorem decodeFrom_utf8EncodeChar (c : Char) (bs : List UInt8) :
    decodeFrom none (String.utf8EncodeChar c ++ bs) = .encoded c :: decodeFrom none bs := by
  obtain ⟨v, hv⟩ : ∃ v, c.val.toNat = v := ⟨_, rfl⟩
  have hc : Char.ofNat v = c := by
    rw [← hv]
    exact Char.ofNat_toNat c
  have hvalid : v < 0xD800 ∨ 0xDFFF < v ∧ v < 0x110000 := by
    rw [← hv]
    exact c.valid
  have hmod : v % 64 < 64 := Nat.mod_lt _ (by decide)
  have hmod' : v / 64 % 64 < 64 := Nat.mod_lt _ (by decide)
  have hmod'' : v / 4096 % 64 < 64 := Nat.mod_lt _ (by decide)
  unfold String.utf8EncodeChar
  simp only [hv]
  by_cases h1 : v ≤ 0x7F
  · have hoctet := toNat_ofNat_of_lt (show v < 256 by omega)
    rw [if_pos h1, List.singleton_append, decodeFrom_ascii (by omega), hoctet, hc]
  rw [if_neg h1]
  by_cases h2 : v ≤ 0x7FF
  · have hlead := lead?_two (show 2 ≤ v / 64 by omega) (show v / 64 < 32 by omega)
    have hbits : v / 64 * 64 + v % 64 = v := by omega
    rw [if_pos h2, Nat.mod_eq_of_lt (show v / 64 < 32 by omega), List.cons_append, List.cons_append,
      decodeFrom_lead (by rw [toNat_ofNat_of_lt (by omega)]; omega) hlead,
      decodeFrom_last hmod (by omega) (by omega), hbits, hc, List.nil_append]
  rw [if_neg h2]
  by_cases h3 : v ≤ 0xFFFF
  · obtain ⟨low, high, hlead, hlow, hhigh⟩ :=
      lead?_three (show 0x800 ≤ v by omega) (by omega) (by omega)
    have hbits : (v / 4096 * 64 + v / 64 % 64) * 64 + v % 64 = v := by omega
    rw [if_pos h3, Nat.mod_eq_of_lt (show v / 4096 < 16 by omega), List.cons_append,
      List.cons_append, List.cons_append,
      decodeFrom_lead (by rw [toNat_ofNat_of_lt (by omega)]; omega) hlead,
      decodeFrom_more hmod' hlow hhigh, decodeFrom_last hmod (by omega) (by omega), hbits, hc,
      List.nil_append]
  · obtain ⟨low, high, hlead, hlow, hhigh⟩ :=
      lead?_four (show 0x10000 ≤ v by omega) (by omega)
    have hbits : ((v / 262144 * 64 + v / 4096 % 64) * 64 + v / 64 % 64) * 64 + v % 64 = v := by
      omega
    rw [if_neg h3, Nat.mod_eq_of_lt (show v / 262144 < 8 by omega), List.cons_append,
      List.cons_append, List.cons_append, List.cons_append,
      decodeFrom_lead (by rw [toNat_ofNat_of_lt (by omega)]; omega) hlead,
      decodeFrom_more hmod'' hlow hhigh, decodeFrom_more hmod' (by omega) (by omega),
      decodeFrom_last hmod (by omega) (by omega), hbits, hc, List.nil_append]

/-- **Round trip.** The octets of a text decode to its characters. -/
theorem decode_encode (text : List Char) : decode (encode text) = text.map .encoded := by
  unfold decode encode
  induction text with
  | nil => rfl
  | cons c cs ih => rw [List.flatMap_cons, decodeFrom_utf8EncodeChar, ih, List.map_cons]

theorem characters_encode (text : List Char) : characters (encode text) = text := by
  rw [characters, decode_encode, List.map_map]
  exact List.map_id text

/-! ## Octets of a text -/

theorem utf8Length_append (cs ds : List Char) :
    utf8Length (cs ++ ds) = utf8Length cs + utf8Length ds := by
  induction cs with
  | nil => exact (Nat.zero_add _).symm
  | cons c cs ih => rw [List.cons_append, utf8Length, utf8Length, ih, Nat.add_assoc]

theorem eq_nil_of_utf8Length_eq_zero {cs : List Char} (h : utf8Length cs = 0) : cs = [] := by
  cases cs with
  | nil => rfl
  | cons c cs =>
    have hsize := c.utf8Size_pos
    rw [utf8Length] at h
    omega

theorem takeOctets?_eq_some_iff {n : Nat} {cs ds : List Char} :
    takeOctets? n cs = some ds ↔ utf8Length ds = n ∧ ds <+: cs := by
  induction cs generalizing n ds with
  | nil =>
    cases n with
    | zero =>
      rw [List.prefix_nil]
      constructor
      · rintro ⟨⟩
        exact ⟨rfl, rfl⟩
      · rintro ⟨-, rfl⟩
        rfl
    | succ n =>
      rw [List.prefix_nil]
      exact iff_of_false (by rintro ⟨⟩) (by rintro ⟨h, rfl⟩; cases h)
  | cons c cs ih =>
    cases n with
    | zero =>
      constructor
      · rintro ⟨⟩
        exact ⟨rfl, List.nil_prefix⟩
      · rintro ⟨h, -⟩
        exact congrArg some (eq_nil_of_utf8Length_eq_zero h).symm
    | succ n =>
      rw [takeOctets?]
      constructor
      · intro h
        split at h
        case isTrue hsize =>
          obtain ⟨es, hes, rfl⟩ := Option.map_eq_some_iff.mp h
          obtain ⟨hlength, hprefix⟩ := ih.mp hes
          refine ⟨?_, List.cons_prefix_cons.mpr ⟨rfl, hprefix⟩⟩
          rw [utf8Length]
          omega
        case isFalse => cases h
      · rintro ⟨hlength, hprefix⟩
        cases ds with
        | nil => cases hlength
        | cons d ds =>
          obtain ⟨rfl, hds⟩ := List.cons_prefix_cons.mp hprefix
          rw [utf8Length] at hlength
          have htail : takeOctets? (n + 1 - d.utf8Size) cs = some ds := ih.mpr ⟨by omega, hds⟩
          rw [if_pos (by omega), htail]
          rfl

end Splice.Text

namespace Splice

theorem Source.text_ofText (text : List Char) : (ofText text).text = text := by
  rw [ofText, Source.text, List.map_map]
  exact List.map_id text

theorem Source.ofOctets_encode (text : List Char) :
    ofOctets (Text.encode text) = ofText text := by
  rw [ofOctets, Text.decode_encode, ofText]

end Splice
