import Splice.Proofs.Binary64.Numerals
import Splice.Proofs.Binary64.Overflow

/-!
# Literals

The numbers that a program may spell, without the underscores between their digits:

```text
literal  := digit+ fraction exponent
fraction := ('.' digit*)?
exponent := ('e' '-'? digit+)?
```

A text that begins with a digit and has no other characters than these is a numeral if and only if
it is a literal, and then denotes what the literal does (`isNumeral_iff_literal`). The number of a
literal has no sign, and it is infinite only if the literal overflows.
-/

namespace Splice

/-- An exponent, and the power of ten that it stands for. -/
inductive Exponent : List Char → Int → Prop where
  | none : Exponent [] 0
  | positive {digits} : AreDigits digits → Exponent ('e' :: digits) (Numeral.valueOf digits)
  | negative {digits} : AreDigits digits → Exponent ('e' :: '-' :: digits) (-Numeral.valueOf digits)

/-- A literal, and the coefficient and the exponent of what it denotes. -/
inductive Literal : List Char → Nat → Int → Prop where
  | of {whole point fraction tail shift} : AreDigits whole → Fraction point fraction →
      Exponent tail shift → Literal (whole ++ (point ++ tail))
        (Numeral.valueOf (whole ++ fraction)) (shift - fraction.length)

def IsLiteral (text : List Char) : Prop := ∃ coefficient exponent, Literal text coefficient exponent

/-- A literal that denotes too much: its exact value is at the midpoint of the last magnitude and
the power of two after it, or past it. -/
def Overflows (text : List Char) : Prop :=
  ∃ coefficient exponent, Literal text coefficient exponent ∧
    Binary64.ceiling * 10 ^ (-exponent).toNat ≤ coefficient * 10 ^ exponent.toNat

/-! ## Literals and numerals -/

namespace Numeral

variable {text tail : List Char} {coefficient : Nat} {exponent : Int}

theorem power_of_exponent (h : Exponent tail exponent) : Power tail exponent := by
  cases h with
  | none => exact .none
  | positive hdigits => exact .of (.inl rfl) .none hdigits
  | negative hdigits => exact .of (.inl rfl) .minus hdigits

/-- Without a plus sign and capital letters a power of ten is an exponent of a literal. -/
theorem exponent_of_power (hplus : '+' ∉ tail) (hupper : 'E' ∉ tail) (h : Power tail exponent) :
    Exponent tail exponent := by
  cases h with
  | none => exact .none
  | of hmark hsign hdigits =>
    obtain rfl := hmark.resolve_right fun heq => hupper (heq ▸ List.mem_cons_self)
    cases hsign with
    | none => exact .positive hdigits
    | plus => exact absurd (List.mem_cons_of_mem _ List.mem_cons_self) hplus
    | minus => exact .negative hdigits

theorem unsigned_of_literal (h : Literal text coefficient exponent) :
    Unsigned text coefficient exponent := by
  cases h with
  | of hwhole hfraction hexponent =>
    exact .of hwhole.2 hfraction (fun hnil => hwhole.1 hnil.1) (power_of_exponent hexponent)

/-- A finite numeral that begins with a digit has digits before its point. -/
theorem literal_of_unsigned {c : Char} {cs : List Char} (hc : c.isDigit = true)
    (hplus : '+' ∉ cs) (hupper : 'E' ∉ cs) (h : Unsigned (c :: cs) coefficient exponent) :
    Literal (c :: cs) coefficient exponent := by
  generalize htext : c :: cs = text at h
  cases h with
  | @of whole point fraction tail shift hwhole hfraction hne hpower =>
    have hfilled : whole ≠ [] := by
      rintro rfl
      cases hfraction with
      | none => exact hne ⟨rfl, rfl⟩
      | point =>
        rw [(List.cons.inj htext).1] at hc
        exact absurd hc (by decide)
    have habsent {d : Char} (hd : d.isDigit = false) (hcs : d ∉ cs) : d ∉ tail := by
      intro hmem
      have hmem' : d ∈ c :: cs :=
        htext ▸ List.mem_append_right _ (List.mem_append_right _ hmem)
      rcases List.mem_cons.mp hmem' with rfl | hmem'
      · exact Bool.noConfusion (hc.symm.trans hd)
      · exact hcs hmem'
    exact .of ⟨hfilled, hwhole⟩ hfraction
      (exponent_of_power (habsent (by decide) hplus) (habsent (by decide) hupper) hpower)

/-- A text that begins with a digit and is made of digits, points, hyphens and the letter e is a
numeral if and only if it is a literal. -/
theorem isNumeral_iff_literal {c : Char} {cs : List Char} {n : Numeral} (hc : c.isDigit = true)
    (hcs : ∀ d ∈ cs, d.isDigit = true ∨ d ∈ ['.', 'e', '-']) :
    IsNumeral (c :: cs) n ↔
      ∃ coefficient exponent, Literal (c :: cs) coefficient exponent ∧
        n = .finite false coefficient exponent := by
  rw [← read?_eq_some_iff, read?_of_isDigit hc (readSign_of_isDigit hc cs)]
  constructor
  · intro h
    obtain ⟨coefficient, exponent, hunsigned, rfl⟩ := unsigned_of_readFinite? h
    have habsent {d : Char} (hd : d.isDigit = false) (hne : d ∉ ['.', 'e', '-']) : d ∉ cs :=
      fun hmem => (hcs d hmem).elim (fun hdigit => Bool.noConfusion (hdigit.symm.trans hd)) hne
    exact ⟨coefficient, exponent, literal_of_unsigned hc (habsent (by decide) (by decide))
      (habsent (by decide) (by decide)) hunsigned, rfl⟩
  · rintro ⟨coefficient, exponent, hliteral, rfl⟩
    exact readFinite?_of_unsigned (unsigned_of_literal hliteral) false

end Numeral

/-! ## The numbers of literals -/

theorem Literal.unique {text : List Char} {coefficient coefficient' : Nat}
    {exponent exponent' : Int}
    (h : Literal text coefficient exponent) (h' : Literal text coefficient' exponent') :
    coefficient = coefficient' ∧ exponent = exponent' := by
  have hread := Numeral.readFinite?_of_unsigned (Numeral.unsigned_of_literal h) false
  rw [Numeral.readFinite?_of_unsigned (Numeral.unsigned_of_literal h') false] at hread
  cases hread
  exact ⟨rfl, rfl⟩

theorem Literal.infinite_iff {text : List Char} {coefficient : Nat} {exponent : Int}
    (h : Literal text coefficient exponent) :
    Binary64.ofDecimal false coefficient exponent = .infinite false ↔ Overflows text := by
  rw [Binary64.ofDecimal_eq_infinite_iff]
  constructor
  · intro hvalue
    exact ⟨coefficient, exponent, h, hvalue⟩
  · rintro ⟨coefficient', exponent', h', hvalue⟩
    obtain ⟨rfl, rfl⟩ := h.unique h'
    exact hvalue

end Splice
