import Mathlib.Data.List.TakeWhile
import Splice.Numeral

/-!
# The grammar of numerals

The texts that read as numbers, and what they denote:

```text
numeral  := sign (unsigned | 'inf' | 'infinity' | 'nan')
unsigned := (digit+ ('.' digit*)? | '.' digit+) power
power    := (('e' | 'E') sign digit+)?
sign     := ('+' | '-')?
```

The words may be in any case. A text is read if and only if it is a numeral, and then as what the
numeral denotes (`read?_eq_some_iff`).
-/

namespace Splice

/-! ## Grammar -/

/-- One digit or more. -/
def AreDigits (cs : List Char) : Prop := cs ≠ [] ∧ ∀ c ∈ cs, c.isDigit = true

/-- A fraction, and its digits. -/
inductive Fraction : List Char → List Char → Prop where
  | none : Fraction [] []
  | point {digits} : (∀ c ∈ digits, c.isDigit = true) → Fraction ('.' :: digits) digits

namespace Numeral

/-- A sign, and whether it is that of a negative number. -/
inductive Sign : List Char → Bool → Prop where
  | none : Sign [] false
  | plus : Sign ['+'] false
  | minus : Sign ['-'] true

/-- A power of ten, and its exponent. -/
inductive Power : List Char → Int → Prop where
  | none : Power [] 0
  | of {mark sign negative digits} : mark = 'e' ∨ mark = 'E' → Sign sign negative →
      AreDigits digits → Power (mark :: (sign ++ digits))
        (if negative then -(valueOf digits : Int) else valueOf digits)

/-- A finite numeral without its sign, and the coefficient and the exponent of what it denotes. -/
inductive Unsigned : List Char → Nat → Int → Prop where
  | of {whole point fraction tail shift} : (∀ c ∈ whole, c.isDigit = true) →
      Fraction point fraction → ¬(whole = [] ∧ fraction = []) → Power tail shift →
      Unsigned (whole ++ (point ++ tail)) (valueOf (whole ++ fraction)) (shift - fraction.length)

end Numeral

open Numeral in
/-- A text that is a numeral, and what it denotes. -/
inductive IsNumeral : List Char → Numeral → Prop where
  | finite {sign negative body coefficient exponent} : Sign sign negative →
      Unsigned body coefficient exponent →
      IsNumeral (sign ++ body) (.finite negative coefficient exponent)
  | infinite {sign negative body} : Sign sign negative →
      body.map Char.toLower = "inf".toList ∨ body.map Char.toLower = "infinity".toList →
      IsNumeral (sign ++ body) (.infinite negative)
  | nan {sign negative body} : Sign sign negative → body.map Char.toLower = "nan".toList →
      IsNumeral (sign ++ body) .nan

namespace Numeral

variable {text body sign digits point fraction tail rest : List Char} {negative : Bool}
  {coefficient : Nat} {exponent : Int} {n : Numeral}

/-! ## Signs -/

theorem exists_sign (text : List Char) : ∃ sign negative body,
    text = sign ++ body ∧ readSign text = (negative, body) ∧ Sign sign negative := by
  unfold readSign
  split
  case h_1 cs => exact ⟨['-'], true, cs, rfl, rfl, .minus⟩
  case h_2 cs => exact ⟨['+'], false, cs, rfl, rfl, .plus⟩
  case h_3 => exact ⟨[], false, text, rfl, rfl, .none⟩

theorem readSign_append (h : Sign sign negative)
    (hbody : ∀ c ∈ body.head?, c ≠ '+' ∧ c ≠ '-') : readSign (sign ++ body) = (negative, body) := by
  cases h with
  | none =>
    rw [List.nil_append]
    unfold readSign
    split
    case h_1 => exact absurd rfl (hbody _ rfl).2
    case h_2 => exact absurd rfl (hbody _ rfl).1
    case h_3 => rfl
  | plus | minus => rfl

theorem ne_sign_of_isDigit {c : Char} (h : c.isDigit = true) : c ≠ '+' ∧ c ≠ '-' := by
  constructor <;>
  · rintro rfl
    exact absurd h (by decide)

theorem readSign_of_isDigit {c : Char} (hc : c.isDigit = true) (cs : List Char) :
    readSign (c :: cs) = (false, c :: cs) := by
  refine readSign_append .none ?_
  rintro _ ⟨⟩
  exact ne_sign_of_isDigit hc

/-- A word in any case begins with no sign if it does not in lower case. -/
theorem ne_sign_of_map_toLower {word : List Char} (h : body.map Char.toLower = word)
    (hplus : word.head? ≠ some '+') (hminus : word.head? ≠ some '-') :
    ∀ c ∈ body.head?, c ≠ '+' ∧ c ≠ '-' := by
  intro c hc
  have hlower : word.head? = some c.toLower := by rw [← h, List.head?_map, hc, Option.map_some]
  constructor
  · rintro rfl
    exact hplus hlower
  · rintro rfl
    exact hminus hlower

theorem AreDigits.head? (h : AreDigits digits) : ∀ c ∈ digits.head?, c ≠ '+' ∧ c ≠ '-' :=
  fun c hc => ne_sign_of_isDigit (h.2 c (List.mem_of_mem_head? hc))

/-! ## Words -/

theorem toLower_eq_of_isDigit {c : Char} (h : c.isDigit = true) : c.toLower = c := by
  unfold Char.toLower
  simp only [Char.isDigit, Bool.and_eq_true, decide_eq_true_eq] at h
  split
  case isTrue hup => exact absurd (Nat.le_trans hup.1 h.2) (by decide)
  case isFalse => rfl

/-- What begins with no letter of the words after its sign is no word in any case. -/
theorem read?_of_toLower_ne {text cs : List Char} {c : Char} {negative : Bool}
    (hi : c.toLower ≠ 'i') (hn : c.toLower ≠ 'n') (h : readSign text = (negative, c :: cs)) :
    read? text = readFinite? negative (c :: cs) := by
  have hinf : (c :: cs).map Char.toLower ≠ "inf".toList :=
    fun hword => hi (List.cons.inj hword).1
  have hinfinity : (c :: cs).map Char.toLower ≠ "infinity".toList :=
    fun hword => hi (List.cons.inj hword).1
  have hnan : (c :: cs).map Char.toLower ≠ "nan".toList :=
    fun hword => hn (List.cons.inj hword).1
  unfold read?
  simp only [h]
  rw [if_neg (not_or.mpr ⟨hinf, hinfinity⟩), if_neg hnan]

theorem read?_of_isDigit {text cs : List Char} {c : Char} {negative : Bool}
    (hc : c.isDigit = true) (h : readSign text = (negative, c :: cs)) :
    read? text = readFinite? negative (c :: cs) := by
  have hne {d : Char} (hd : d.isDigit = false) : c.toLower ≠ d := by
    rw [toLower_eq_of_isDigit hc]
    rintro rfl
    exact Bool.noConfusion (hc.symm.trans hd)
  exact read?_of_toLower_ne (hne (by decide)) (hne (by decide)) h

/-! ## Powers -/

theorem readExponent?_eq_some_iff : readExponent? tail = some exponent ↔ Power tail exponent := by
  constructor
  · intro h
    cases tail with
    | nil =>
      cases h
      exact .none
    | cons mark cs =>
      obtain ⟨sign, negative, digits, rfl, hread, hsign⟩ := exists_sign cs
      unfold readExponent? at h
      simp only [hread] at h
      split at h
      case isFalse => cases h
      case isTrue hpower =>
        obtain ⟨hmark, hne, hall⟩ := hpower
        rw [← Option.some.inj h]
        exact .of hmark hsign ⟨hne, List.all_eq_true.mp hall⟩
  · intro h
    cases h with
    | none => rfl
    | of hmark hsign hdigits =>
      unfold readExponent?
      simp only [readSign_append hsign (AreDigits.head? hdigits)]
      exact if_pos ⟨hmark, hdigits.1, List.all_eq_true.mpr hdigits.2⟩

/-! ## Finite numerals -/

theorem takeWhile_digits (h : ∀ c ∈ digits, c.isDigit = true)
    (hrest : rest.takeWhile Char.isDigit = []) :
    (digits ++ rest).takeWhile Char.isDigit = digits ∧
      (digits ++ rest).dropWhile Char.isDigit = rest := by
  have hdrop : rest.dropWhile Char.isDigit = rest := by
    have hsplit := List.takeWhile_append_dropWhile (p := Char.isDigit) (l := rest)
    rwa [hrest, List.nil_append] at hsplit
  rw [List.takeWhile_append_of_pos h, List.dropWhile_append_of_pos h, hrest, List.append_nil, hdrop]
  exact ⟨rfl, rfl⟩

theorem takeWhile_power (h : Power tail exponent) : tail.takeWhile Char.isDigit = [] := by
  cases h with
  | none => rfl
  | of hmark => rcases hmark with rfl | rfl <;> rfl

theorem takeWhile_point (h : Fraction point fraction) (hpower : Power tail exponent) :
    (point ++ tail).takeWhile Char.isDigit = [] := by
  cases h with
  | none => exact takeWhile_power hpower
  | point => rfl

theorem readFraction_append (h : Fraction point fraction) (hpower : Power tail exponent) :
    readFraction (point ++ tail) = (fraction, tail) := by
  cases h with
  | none =>
    cases hpower with
    | none => rfl
    | of hmark => rcases hmark with rfl | rfl <;> rfl
  | point hdigits =>
    obtain ⟨htake, hdrop⟩ := takeWhile_digits hdigits (takeWhile_power hpower)
    rw [List.cons_append, readFraction, htake, hdrop]

theorem exists_fraction (rest : List Char) : ∃ point fraction tail,
    rest = point ++ tail ∧ readFraction rest = (fraction, tail) ∧ Fraction point fraction := by
  unfold readFraction
  split
  case h_1 cs =>
    refine ⟨'.' :: cs.takeWhile Char.isDigit, _, _, ?_, rfl, .point fun c hc => ?_⟩
    · rw [List.cons_append, List.takeWhile_append_dropWhile]
    · exact List.mem_takeWhile_imp hc
  case h_2 => exact ⟨[], [], rest, rfl, rfl, .none⟩

theorem readFinite?_of_unsigned (h : Unsigned body coefficient exponent) (negative : Bool) :
    readFinite? negative body = some (.finite negative coefficient exponent) := by
  cases h with
  | of hwhole hfraction hne hpower =>
    obtain ⟨htake, hdrop⟩ := takeWhile_digits hwhole (takeWhile_point hfraction hpower)
    unfold readFinite?
    simp only [htake, hdrop, readFraction_append hfraction hpower,
      readExponent?_eq_some_iff.mpr hpower]
    exact if_neg hne

theorem unsigned_of_readFinite? (h : readFinite? negative body = some n) :
    ∃ coefficient exponent, Unsigned body coefficient exponent ∧
      n = .finite negative coefficient exponent := by
  obtain ⟨point, fraction, tail, hrest, hread, hfraction⟩ :=
    exists_fraction (body.dropWhile Char.isDigit)
  have hbody : body.takeWhile Char.isDigit ++ (point ++ tail) = body := by
    rw [← hrest, List.takeWhile_append_dropWhile]
  unfold readFinite? at h
  simp only [hread] at h
  split at h
  case isTrue => cases h
  case isFalse hne =>
    obtain ⟨shift, hshift, rfl⟩ := Option.map_eq_some_iff.mp h
    have hunsigned := Unsigned.of (fun c hc => List.mem_takeWhile_imp hc) hfraction hne
      (readExponent?_eq_some_iff.mp hshift)
    rw [hbody] at hunsigned
    exact ⟨_, _, hunsigned, rfl⟩

/-! ## Numerals -/

theorem Unsigned.head? (h : Unsigned body coefficient exponent) :
    ∃ c cs, body = c :: cs ∧ (c.isDigit = true ∨ c = '.') := by
  cases h with
  | @of whole point fraction tail shift hwhole hfraction hne hpower =>
    cases whole with
    | nil =>
      cases hfraction with
      | none => exact absurd ⟨rfl, rfl⟩ hne
      | point => exact ⟨_, _, rfl, .inr rfl⟩
    | cons c cs => exact ⟨_, _, rfl, .inl (hwhole c List.mem_cons_self)⟩

/-- A text is read if and only if it is a numeral. -/
theorem read?_eq_some_iff : read? text = some n ↔ IsNumeral text n := by
  constructor
  · intro h
    obtain ⟨sign, negative, body, rfl, hread, hsign⟩ := exists_sign text
    unfold read? at h
    simp only [hread] at h
    split at h
    case isTrue hword =>
      cases h
      exact .infinite hsign hword
    case isFalse =>
      split at h
      case isTrue hword =>
        cases h
        exact .nan hsign hword
      case isFalse =>
        obtain ⟨coefficient, exponent, hunsigned, rfl⟩ := unsigned_of_readFinite? h
        exact .finite hsign hunsigned
  · intro h
    cases h with
    | finite hsign hunsigned =>
      obtain ⟨c, cs, rfl, hc⟩ := hunsigned.head?
      rw [← readFinite?_of_unsigned hunsigned]
      rcases hc with hdigit | rfl
      · refine read?_of_isDigit hdigit (readSign_append hsign ?_)
        rintro _ ⟨⟩
        exact ne_sign_of_isDigit hdigit
      · refine read?_of_toLower_ne (by decide) (by decide) (readSign_append hsign ?_)
        rintro _ ⟨⟩
        decide
    | @infinite sign negative body hsign hword =>
      have hbody : ∀ c ∈ body.head?, c ≠ '+' ∧ c ≠ '-' :=
        hword.elim (ne_sign_of_map_toLower · (by decide) (by decide))
          (ne_sign_of_map_toLower · (by decide) (by decide))
      unfold read?
      simp only [readSign_append hsign hbody]
      exact if_pos hword
    | nan hsign hword =>
      unfold read?
      have hbody := ne_sign_of_map_toLower hword (by decide) (by decide)
      simp only [readSign_append hsign hbody, hword]
      rfl

end Numeral

end Splice
