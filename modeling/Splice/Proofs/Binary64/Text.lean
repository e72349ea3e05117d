import Mathlib.Data.List.TakeWhile
import Splice.Binary64.Shortest
import Splice.Proofs.Binary64.Numerals
import Splice.Proofs.Binary64.Rounding

/-!
# Texts of numbers

The text of a finite number is a decimal, after a sign if it has one (`exists_decimal`), and the
text of any number reads back as that number (`read?_text`). Whether the search for few digits ends
early does not matter: each candidate is read back, and the exact decimal behind them is exact.
-/

namespace Splice

/-! ## Decimals -/

/-- Digits without a superfluous zero in front, and the digits of a fraction. -/
structure Decimal where
  whole : List Char
  fraction : List Char
  whole_ne_nil : whole ≠ []
  isDigit : ∀ c ∈ whole ++ fraction, c.isDigit = true
  leading : whole.head? = some '0' → whole = ['0']

namespace Decimal

/-- The point and the digits after it; nothing if there are none. -/
def tail (d : Decimal) : List Char := if d.fraction = [] then [] else '.' :: d.fraction

def text (d : Decimal) : List Char := d.whole ++ d.tail

/-- The number nearest to a decimal, with a sign. -/
def number (negative : Bool) (d : Decimal) : Binary64 :=
  .ofDecimal negative (Numeral.valueOf (d.whole ++ d.fraction)) (-d.fraction.length)

theorem exists_cons (d : Decimal) : ∃ c cs, d.text = c :: cs ∧ c.isDigit = true := by
  obtain ⟨c, cs, h⟩ := List.exists_cons_of_ne_nil d.whole_ne_nil
  refine ⟨c, cs ++ d.tail, by rw [text, h, List.cons_append], d.isDigit c ?_⟩
  rw [h]
  exact List.mem_cons_self

theorem isDigit_of_mem_whole (d : Decimal) {c : Char} (h : c ∈ d.whole) : c.isDigit = true :=
  d.isDigit c (List.mem_append_left _ h)

theorem isDigit_of_mem_fraction (d : Decimal) {c : Char} (h : c ∈ d.fraction) : c.isDigit = true :=
  d.isDigit c (List.mem_append_right _ h)

theorem isDigit_or_eq_of_mem (d : Decimal) {c : Char} (h : c ∈ d.text) :
    c.isDigit = true ∨ c = '.' := by
  rcases List.mem_append.mp h with h | h
  · exact .inl (d.isDigit_of_mem_whole h)
  unfold tail at h
  split at h
  · exact absurd h List.not_mem_nil
  rcases List.mem_cons.mp h with h | h
  · exact .inr h
  · exact .inl (d.isDigit_of_mem_fraction h)

/-! ### Reading -/

theorem takeWhile_fraction (d : Decimal) : d.fraction.takeWhile Char.isDigit = d.fraction := by
  apply List.takeWhile_eq_self_iff.mpr
  intro c hc
  exact d.isDigit_of_mem_fraction hc

theorem dropWhile_fraction (d : Decimal) : d.fraction.dropWhile Char.isDigit = [] := by
  apply List.dropWhile_eq_nil_iff.mpr
  intro c hc
  exact d.isDigit_of_mem_fraction hc

theorem takeWhile_text (d : Decimal) : d.text.takeWhile Char.isDigit = d.whole := by
  have htail : d.tail.takeWhile Char.isDigit = [] := by
    unfold tail
    split <;> rfl
  rw [text, List.takeWhile_append_of_pos fun c hc => d.isDigit_of_mem_whole hc, htail,
    List.append_nil]

theorem dropWhile_text (d : Decimal) : d.text.dropWhile Char.isDigit = d.tail := by
  have htail : d.tail.dropWhile Char.isDigit = d.tail := by
    unfold tail
    split <;> rfl
  rw [text, List.dropWhile_append_of_pos fun c hc => d.isDigit_of_mem_whole hc, htail]

theorem fraction_tail (d : Decimal) : Fraction d.tail d.fraction := by
  unfold tail
  split
  case isTrue h =>
    rw [h]
    exact .none
  case isFalse => exact .point fun _ hc => d.isDigit_of_mem_fraction hc

theorem unsigned_text (d : Decimal) :
    Numeral.Unsigned d.text (Numeral.valueOf (d.whole ++ d.fraction)) (-d.fraction.length) := by
  have h := Numeral.Unsigned.of (fun _ hc => d.isDigit_of_mem_whole hc) d.fraction_tail
    (fun hnil => d.whole_ne_nil hnil.1) .none
  rwa [List.append_nil, Int.zero_sub] at h

/-- A decimal with a sign reads as the number with that sign. -/
theorem read?_text (d : Decimal) {sign : List Char} {negative : Bool}
    (h : Numeral.Sign sign negative) :
    Binary64.read? (sign ++ d.text) = some (d.number negative) := by
  have hread := Numeral.read?_eq_some_iff.mpr (.finite h d.unsigned_text)
  rw [Binary64.read?, hread]
  rfl

end Decimal

/-! ## Positional notation -/

theorem Numeral.valueOf_append (a b : List Char) :
    valueOf (a ++ b) = valueOf a * 10 ^ b.length + valueOf b := by
  unfold valueOf
  rw [Nat.ofDigitChars_append, Nat.ofDigitChars_eq_ofDigitChars_zero, Nat.mul_comm]

theorem Numeral.valueOf_toDigits (n : Nat) : valueOf (Nat.toDigits 10 n) = n :=
  Nat.ofDigitChars_ten_toDigits

theorem Numeral.valueOf_replicate (n : Nat) : valueOf (List.replicate n '0') = 0 := by
  unfold valueOf
  rw [Nat.ofDigitChars_replicate_zero, Nat.mul_zero]

theorem isDigit_toDigits {n : Nat} {c : Char} (h : c ∈ Nat.toDigits 10 n) : c.isDigit = true :=
  Nat.isDigit_of_mem_toDigits (by decide) (by decide) h

/-- Only zero is written with a zero in front. -/
theorem toDigits_leading {n : Nat} (h : (Nat.toDigits 10 n).head? = some '0') : n = 0 := by
  induction n using Nat.strongRecOn with
  | ind n ih =>
    by_cases hn : n < 10
    · rw [Nat.toDigits_of_lt_base hn, List.head?_cons, Option.some.injEq] at h
      have hval := Nat.toNat_digitChar_sub_48_of_lt_ten hn
      rw [h] at hval
      exact hval.symm
    · have hhead : (Nat.toDigits 10 (n / 10)).head? = some '0' := by
        rw [Nat.toDigits_of_base_le (by decide) (by omega), List.head?_append,
          List.head?_eq_some_head Nat.toDigits_ne_nil, Option.some_or] at h
        rw [List.head?_eq_some_head Nat.toDigits_ne_nil, h]
      have := ih (n / 10) (by omega) hhead
      omega

theorem exists_trimZeros (digits : List Char) :
    ∃ k, digits = trimZeros digits ++ List.replicate k '0' := by
  have hzeros : digits.reverse.takeWhile (· == '0') =
      List.replicate (digits.reverse.takeWhile (· == '0')).length '0' :=
    List.eq_replicate_of_mem fun c hc => by simpa using List.mem_takeWhile_imp hc
  refine ⟨(digits.reverse.takeWhile (· == '0')).length, ?_⟩
  unfold trimZeros
  rw [← List.reverse_replicate, ← hzeros, ← List.reverse_append, List.takeWhile_append_dropWhile,
    List.reverse_reverse]

theorem trimZeros_subset {digits : List Char} {c : Char} (h : c ∈ trimZeros digits) :
    c ∈ digits := by
  obtain ⟨k, hk⟩ := exists_trimZeros digits
  rw [hk]
  exact List.mem_append_left _ h

/-- A text in positional notation without a point. -/
def Decimal.ofNat (n : Nat) : Decimal where
  whole := Nat.toDigits 10 n
  fraction := []
  whole_ne_nil := Nat.toDigits_ne_nil
  isDigit c h := isDigit_toDigits (by simpa using h)
  leading h := by rw [toDigits_leading h, Nat.toDigits_zero]

/-- The digits of a number, after zeros enough to stand before so many places. -/
def padded (n places : Nat) : List Char :=
  List.replicate (places + 1 - (Nat.toDigits 10 n).length) '0' ++ Nat.toDigits 10 n

theorem length_padded (n places : Nat) : places < (padded n places).length := by
  unfold padded
  rw [List.length_append, List.length_replicate]
  omega

theorem isDigit_padded {n places : Nat} {c : Char} (h : c ∈ padded n places) :
    c.isDigit = true := by
  rcases List.mem_append.mp h with h | h
  · rw [List.eq_of_mem_replicate h]
    rfl
  · exact isDigit_toDigits h

theorem valueOf_padded (n places : Nat) : Numeral.valueOf (padded n places) = n := by
  rw [padded, Numeral.valueOf_append, Numeral.valueOf_replicate, Numeral.valueOf_toDigits,
    Nat.zero_mul, Nat.zero_add]

/-- A zero before the point stands there alone. -/
theorem padded_leading {n places : Nat} (hplaces : 0 < places)
    (h : ((padded n places).take ((padded n places).length - places)).head? = some '0') :
    (padded n places).take ((padded n places).length - places) = ['0'] := by
  have hlength := length_padded n places
  rw [List.head?_take, if_neg (by omega)] at h
  unfold padded at *
  by_cases hzeros : places + 1 - (Nat.toDigits 10 n).length = 0
  · rw [hzeros, List.replicate_zero, List.nil_append] at h hlength
    rw [toDigits_leading h, Nat.toDigits_zero, List.length_singleton] at hlength
    omega
  · obtain ⟨k, hk⟩ := Nat.exists_eq_succ_of_ne_zero hzeros
    have hone : (List.replicate (places + 1 - (Nat.toDigits 10 n).length) '0' ++
        Nat.toDigits 10 n).length - places = 1 := by
      rw [List.length_append, List.length_replicate]
      omega
    rw [hone, hk, List.replicate_succ, List.cons_append, List.take_succ_cons, List.take_zero]

/-- A text in positional notation with so many places after the point, without zeros at its end. -/
def Decimal.ofPlaces (n places : Nat) (hplaces : 0 < places) : Decimal where
  whole := (padded n places).take ((padded n places).length - places)
  fraction := trimZeros ((padded n places).drop ((padded n places).length - places))
  whole_ne_nil := by
    have := length_padded n places
    exact List.ne_nil_of_length_pos (by rw [List.length_take]; omega)
  isDigit c h := by
    rcases List.mem_append.mp h with h | h
    · exact isDigit_padded (List.mem_of_mem_take h)
    · exact isDigit_padded (List.mem_of_mem_drop (trimZeros_subset h))
  leading := padded_leading hplaces

theorem Decimal.number_ofNat (c n : Nat) (hn : n ≤ 400) (negative : Bool) :
    (Decimal.ofNat (c * 10 ^ n)).number negative = .ofDecimal negative c n := by
  show Binary64.ofDecimal negative (Numeral.valueOf (Nat.toDigits 10 (c * 10 ^ n) ++ [])) 0 = _
  rw [List.append_nil, Numeral.valueOf_toDigits,
    ← Binary64.ofDecimal_shift negative c n (Int.ofNat_le.mpr hn), Int.sub_self]

theorem Decimal.ofPlaces_zeros (c places : Nat) (hplaces : 0 < places) :
    ∃ k, padded c places = (ofPlaces c places hplaces).whole ++
        (ofPlaces c places hplaces).fraction ++ List.replicate k '0' ∧
      (ofPlaces c places hplaces).fraction.length + k = places := by
  obtain ⟨k, hk⟩ :=
    exists_trimZeros ((padded c places).drop ((padded c places).length - places))
  refine ⟨k, ?_, ?_⟩
  · rw [List.append_assoc]
    exact (List.take_append_drop _ _).symm.trans (congrArg _ hk)
  · have hlength := congrArg List.length hk
    have hlt := length_padded c places
    rw [List.length_append, List.length_replicate, List.length_drop] at hlength
    show (trimZeros _).length + k = places
    omega

theorem Decimal.number_ofPlaces (c places : Nat) (hplaces : 0 < places) (negative : Bool) :
    (ofPlaces c places hplaces).number negative = .ofDecimal negative c (-places) := by
  obtain ⟨k, hdigits, hlength⟩ := ofPlaces_zeros c places hplaces
  generalize ofPlaces c places hplaces = d at hdigits hlength
  have hvalue : Numeral.valueOf (d.whole ++ d.fraction) * 10 ^ k = c := by
    have := valueOf_padded c places
    rwa [hdigits, Numeral.valueOf_append, Numeral.valueOf_replicate, List.length_replicate,
      Nat.add_zero] at this
  have hexp : -(places : Int) = -d.fraction.length - k := by omega
  have hle : -(d.fraction.length : Int) ≤ 400 := by omega
  rw [← hvalue, hexp, Binary64.ofDecimal_shift negative _ k hle, number]

/-- Positional notation is a decimal, and keeps the number. -/
theorem exists_decimal_positional (c : Nat) {e : Int} (he : e ≤ 400) :
    ∃ d : Decimal, positional c e = d.text ∧
      ∀ negative, d.number negative = .ofDecimal negative c e := by
  cases e with
  | ofNat n =>
    refine ⟨.ofNat (c * 10 ^ n), ?_, Decimal.number_ofNat c n (Int.ofNat_le.mp he)⟩
    show (if c = 0 then _ else _) = Nat.toDigits 10 (c * 10 ^ n) ++ []
    rw [List.append_nil]
    by_cases h : c = 0
    · rw [if_pos h, h, Nat.zero_mul]
    · rw [if_neg h, Binary64.toDigits_mul_pow h]
  | negSucc n =>
    refine ⟨.ofPlaces c (n + 1) (Nat.succ_pos n), ?_, Decimal.number_ofPlaces c (n + 1) _⟩
    rw [Decimal.text, Decimal.tail]
    by_cases h : (Decimal.ofPlaces c (n + 1) (Nat.succ_pos n)).fraction = []
    · rw [if_pos h, List.append_nil]
      exact if_pos h
    · rw [if_neg h]
      exact if_neg h

/-! ## Shortest decimals -/

namespace Binary64

theorem ofDecimal_of_readsAs {rank c : Nat} {place : Int} (h : readsAs rank place c = true) :
    ∃ sign r, ofDecimal false c place = .finite sign r ∧ r.val = rank := by
  unfold readsAs at h
  split at h
  case h_1 sign r hr => exact ⟨sign, r, hr, beq_iff_eq.mp h⟩
  case h_2 => exact absurd h Bool.false_ne_true

theorem readsAs_of_withPlace? {rank c : Nat} {place e : Int}
    (h : withPlace? rank place = some (c, e)) : readsAs rank e c = true := by
  unfold withPlace? at h
  extract_lets near at h
  rw [Option.map_eq_some_iff] at h
  obtain ⟨c', hfind, hpair⟩ := h
  obtain ⟨rfl, rfl⟩ := Prod.mk.inj hpair
  exact List.find?_some hfind

theorem lt_length_toDigits {n k : Nat} (hk : 0 < k) (h : 10 ^ k ≤ n) :
    k < (Nat.toDigits 10 n).length := by
  apply Nat.lt_of_not_le
  intro hle
  exact absurd h (Nat.not_le_of_lt ((Nat.length_toDigits_le_iff (by decide) hk).mp hle))

theorem five_pow_mul_unit : Nat.pow 5 1074 * unit = 10 ^ 1074 := by decide +kernel

theorem ten_pow_le_five_pow : 10 ^ 673 ≤ Nat.pow 5 1074 := by decide +kernel

theorem units_pos {rank : Nat} (h : rank ≠ 0) : 0 < units rank := by
  unfold units
  refine Nat.mul_pos ?_ (Nat.two_pow_pos _)
  unfold significand exponent
  simp only [block]
  omega

/-- The exact decimal behind the search reads back as the magnitude. -/
theorem ofDecimal_exact {rank : Nat} (h0 : rank ≠ 0) (h : rank < magnitudes) :
    ofDecimal false (units rank * Nat.pow 5 1074) (-1074) = .finite false ⟨rank, h⟩ := by
  -- the power stays a variable from here on: nothing below depends on its digits
  have hunit := five_pow_mul_unit
  have hfive := ten_pow_le_five_pow
  generalize Nat.pow 5 1074 = five at hunit hfive ⊢
  have hle : 10 ^ 673 ≤ units rank * five :=
    Nat.le_trans hfive (Nat.le_mul_of_pos_left _ (units_pos h0))
  have hpos : 0 < 10 ^ 673 := by decide +kernel
  have hne : units rank * five ≠ 0 := Nat.ne_of_gt (Nat.lt_of_lt_of_le hpos hle)
  have hlength : 673 < (Nat.toDigits 10 (units rank * five)).length :=
    lt_length_toDigits (by decide) hle
  have hnone : (-1074 : Int).toNat = 0 := rfl
  have hall : (- -1074 : Int).toNat = 1074 := rfl
  have hvalue : units rank * five * 10 ^ (-1074 : Int).toNat * unit =
      units rank * 10 ^ (- -1074 : Int).toNat := by
    rw [hnone, hall, Nat.pow_zero, Nat.mul_one, Nat.mul_assoc, hunit]
  rw [ofDecimal_eq_ofFraction false hne (by decide) (by omega),
    ofFraction_congr false (Nat.pow_pos (by decide)) unit_pos hvalue]
  unfold ofFraction
  simp only [rankOf_units]
  exact dif_pos h

theorem ofDecimal_shortest {rank : Nat} (h : rank < magnitudes) :
    ofDecimal false (shortest rank).1 (shortest rank).2 = .finite false ⟨rank, h⟩ := by
  unfold shortest
  by_cases h0 : rank = 0
  · subst h0
    rfl
  rw [if_neg h0]
  cases hsearch : (List.range 17).findSome? fun n => withDigits? rank (n + 1) with
  | none => exact ofDecimal_exact h0 h
  | some found =>
    obtain ⟨n, -, hfound⟩ := List.exists_of_findSome?_eq_some hsearch
    obtain ⟨sign, r, hr, hrank⟩ := ofDecimal_of_readsAs (readsAs_of_withPlace? hfound)
    rw [Option.getD_some, ofDecimal_finite hr false]
    exact congrArg _ (Fin.ext hrank)

theorem shortest_le {rank : Nat} (h : rank < magnitudes) : (shortest rank).2 ≤ 400 := by
  by_contra hlt
  have hread := ofDecimal_shortest h
  unfold ofDecimal at hread
  rw [if_pos (c := 400 < (shortest rank).2) (by omega)] at hread
  split at hread
  case isTrue =>
    obtain rfl : rank = 0 := by simpa [zero] using hread
    exact hlt (by decide)
  case isFalse => exact Binary64.noConfusion hread

/-- The text of a magnitude is a decimal of that magnitude. -/
theorem exists_decimal (rank : Fin magnitudes) :
    ∃ d : Decimal, magnitudeText rank = d.text ∧
      ∀ negative, d.number negative = .finite negative rank := by
  obtain ⟨d, htext, hnumber⟩ :=
    exists_decimal_positional (shortest rank).1 (shortest_le rank.isLt)
  refine ⟨d, htext, ?_⟩
  intro negative
  rw [hnumber, ofDecimal_finite (ofDecimal_shortest rank.isLt) negative]

/-- The text of a finite number begins with a digit, or with a minus sign and a digit. -/
theorem exists_text_eq_cons {x : Binary64} (h : x.isFinite = true) :
    ∃ c cs, c.isDigit = true ∧ (x.text = c :: cs ∨ x.text = '-' :: c :: cs) := by
  cases x with
  | finite negative rank =>
    obtain ⟨d, htext, -⟩ := exists_decimal rank
    obtain ⟨c, cs, hcons, hc⟩ := d.exists_cons
    rw [hcons] at htext
    refine ⟨c, cs, hc, ?_⟩
    cases negative with
    | false => exact .inl htext
    | true => exact .inr (congrArg _ htext)
  | infinite => exact absurd h Bool.false_ne_true
  | nan => exact absurd h Bool.false_ne_true

theorem read?_text (x : Binary64) : read? x.text = some x := by
  cases x with
  | finite negative rank =>
    obtain ⟨d, htext, hnumber⟩ := exists_decimal rank
    cases negative with
    | false =>
      show read? (magnitudeText rank) = _
      rw [htext, ← List.nil_append d.text, d.read?_text .none, hnumber]
    | true =>
      show read? ('-' :: magnitudeText rank) = _
      rw [htext, ← List.singleton_append, d.read?_text .minus, hnumber]
  | infinite negative => cases negative <;> decide
  | nan => decide

end Binary64

end Splice
