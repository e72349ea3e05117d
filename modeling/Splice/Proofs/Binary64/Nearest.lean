import Mathlib.Data.Nat.Dist
import Mathlib.Order.Monotone.Basic
import Splice.Proofs.Binary64.Overflow

/-!
# Nearest magnitudes

Rounding gives the nearest magnitude, and of two that are as near the one with the even rank
(`isNearest_rankOf`). There is only one such magnitude, so the number of a numeral is what the
numeral rounds to (`Numeral.roundsTo_iff`): magnitudes are rounded to as if they had no bound above,
and past the last one is infinity.
-/

namespace Splice

namespace Binary64

/-! ## Magnitudes in order -/

/-- In the block of a power of two, and at its end, magnitudes are multiples of the power. -/
theorem units_of_le {power s : Nat} (hlow : power = 0 ∨ block ≤ s) (hhigh : s ≤ 2 * block) :
    units (power * block + s) = s * 2 ^ power := by
  rcases Nat.lt_or_ge s block with hlt | hge
  · obtain rfl := hlow.resolve_right (Nat.not_le_of_lt hlt)
    rw [Nat.zero_mul, Nat.zero_add, units_of_lt hlt, Nat.pow_zero, Nat.mul_one]
  rcases Nat.lt_or_eq_of_le hhigh with hlt | rfl
  · have hexponent : exponent (power * block + s) = power := by
      unfold exponent
      simp only [block] at *
      omega
    rw [units, significand, hexponent, Nat.add_sub_cancel_left]
    rfl
  · have hexponent : exponent (power * block + 2 * block) = power + 1 := by
      unfold exponent
      simp only [block]
      omega
    have hsignificand : power * block + 2 * block - (power + 1) * block = block := by
      simp only [block]
      omega
    rw [units, significand, hexponent, hsignificand]
    show block * 2 ^ (power + 1) = 2 * block * 2 ^ power
    rw [Nat.pow_succ', Nat.mul_left_comm, Nat.mul_assoc]

theorem units_strictMono : StrictMono units := by
  refine strictMono_nat_of_lt_succ fun rank => ?_
  obtain ⟨power, s, rfl, hlow, hhigh⟩ : ∃ power s, rank = power * block + s ∧
      (power = 0 ∨ block ≤ s) ∧ s + 1 ≤ 2 * block := by
    refine ⟨rank / block - 1, rank - (rank / block - 1) * block, ?_⟩
    simp only [block]
    omega
  have hnext : power = 0 ∨ block ≤ s + 1 := hlow.imp_right (Nat.le_succ_of_le ·)
  rw [Nat.add_assoc, units_of_le hlow (by omega), units_of_le hnext hhigh]
  exact Nat.mul_lt_mul_of_pos_right (Nat.lt_succ_self s) (Nat.two_pow_pos power)

/-! ## Nearest ranks -/

/-- No magnitude is nearer to `num / den` units than that of a rank, and if another one is as near,
the rank is even. -/
structure IsNearest (num den rank : Nat) : Prop where
  le : ∀ rank', Nat.dist num (units rank * den) ≤ Nat.dist num (units rank' * den)
  even : ∀ rank', rank' ≠ rank →
    Nat.dist num (units rank * den) = Nat.dist num (units rank' * den) → rank % 2 = 0

variable {num den : Nat}

/-- Two ranks would both be even, and one between them would be nearer. -/
theorem IsNearest.unique (hden : 0 < den) {rank rank' : Nat} (h : IsNearest num den rank)
    (h' : IsNearest num den rank') : rank = rank' := by
  wlog hlt : rank < rank' generalizing rank rank'
  · rcases Nat.lt_or_eq_of_le (Nat.le_of_not_lt hlt) with hgt | heq
    · exact (this h' h hgt).symm
    · exact heq.symm
  have heq := Nat.le_antisymm (h.le rank') (h'.le rank)
  have heven := h.even rank' (Nat.ne_of_gt hlt) heq
  have heven' := h'.even rank (Nat.ne_of_lt hlt) heq.symm
  have hlow : units rank * den < units (rank + 1) * den :=
    Nat.mul_lt_mul_of_pos_right (units_strictMono (Nat.lt_succ_self rank)) hden
  have hhigh : units (rank + 1) * den < units rank' * den :=
    Nat.mul_lt_mul_of_pos_right (units_strictMono (by omega)) hden
  have hle := h.le (rank + 1)
  unfold Nat.dist at hle heq
  omega

/-! ## Rounding -/

/-- Rounding gives the nearest integer, and of two that are as near the even one. -/
theorem roundHalfEven_nearest (hden : 0 < den) (n : Nat) :
    Nat.dist num (roundHalfEven num den * den) ≤ Nat.dist num (n * den) ∧
      (n ≠ roundHalfEven num den →
        Nat.dist num (roundHalfEven num den * den) = Nat.dist num (n * den) →
        roundHalfEven num den % 2 = 0) := by
  have hdiv : num / den * den + num % den = num := Nat.div_add_mod' num den
  have hmod : num % den < den := Nat.mod_lt num hden
  have hfloor : Nat.dist num (num / den * den) = num % den := by
    unfold Nat.dist
    omega
  have hceil : Nat.dist num ((num / den + 1) * den) = den - num % den := by
    rw [Nat.add_mul, Nat.one_mul]
    unfold Nat.dist
    omega
  -- any other integer is at least one step further out on its side
  have hother : n = num / den ∨ n = num / den + 1 ∨
      num % den + den ≤ Nat.dist num (n * den) ∨ den - num % den + den ≤ Nat.dist num (n * den) := by
    rcases Nat.lt_trichotomy n (num / den) with hlt | heq | hgt
    · have hmul : (n + 1) * den ≤ num / den * den := Nat.mul_le_mul_right den hlt
      rw [Nat.add_mul, Nat.one_mul] at hmul
      refine .inr (.inr (.inl ?_))
      unfold Nat.dist
      omega
    · exact .inl heq
    rcases Nat.lt_or_eq_of_le hgt with hgt | heq
    · have hmul : (num / den + 1 + 1) * den ≤ n * den := Nat.mul_le_mul_right den hgt
      rw [Nat.add_mul, Nat.add_mul, Nat.one_mul] at hmul
      refine .inr (.inr (.inr ?_))
      unfold Nat.dist
      omega
    · exact .inr (.inl heq.symm)
  unfold roundHalfEven
  dsimp only
  split_ifs with hbelow habove
  · rw [hfloor]
    rcases hother with rfl | rfl | hfar | hfar <;> omega
  · rw [hceil]
    rcases hother with rfl | rfl | hfar | hfar <;> omega
  · have hround : Nat.dist num ((num / den + num / den % 2) * den) = num % den := by
      rcases Nat.mod_two_eq_zero_or_one (num / den) with heven | hodd
      · rw [heven, Nat.add_zero, hfloor]
      · rw [hodd, hceil]
        omega
    rw [hround]
    rcases hother with rfl | rfl | hfar | hfar <;> omega

/-- What is beyond a point, on the other side of it, is farther away than the point. -/
theorem dist_lt_of_lt {a b c : Nat} (h : a ≤ b ∧ b < c ∨ c < b ∧ b ≤ a) :
    Nat.dist a b < Nat.dist a c := by
  unfold Nat.dist
  omega

/-- A multiple of a power of two in the block that shares it, or at its end. -/
def IsMultiple (power t : Nat) : Prop := (power = 0 ∨ block ≤ t) ∧ t ≤ 2 * block

theorem IsMultiple.units_mul {power t : Nat} (h : IsMultiple power t) (den : Nat) :
    units (power * block + t) * den = t * (den * 2 ^ power) := by
  rw [units_of_le h.1 h.2, Nat.mul_assoc, Nat.mul_comm (2 ^ power)]

/-- Of a value in a block every magnitude is in the block too, or it is beyond an end of it. -/
theorem isMultiple_or_beyond (hden : 0 < den) {power : Nat} (hupper : num / den < 2 ^ (power + 53))
    (hlower : power ≠ 0 → 2 ^ (power + 52) ≤ num / den) (rank : Nat) :
    (∃ t, IsMultiple power t ∧ rank = power * block + t) ∨
      ∃ t, Nat.dist num (t * (den * 2 ^ power)) < Nat.dist num (units rank * den) := by
  by_cases hhigh : power * block + 2 * block < rank
  · have hend : IsMultiple power (2 * block) := ⟨.inr (by decide), Nat.le_refl _⟩
    have hnum : num ≤ 2 * block * (den * 2 ^ power) := by
      have hlt : num < 2 ^ (power + 53) * den := (Nat.div_lt_iff_lt_mul hden).mp hupper
      rw [Nat.pow_add, Nat.mul_right_comm, Nat.mul_comm (2 ^ power), Nat.mul_comm] at hlt
      exact Nat.le_of_lt hlt
    have hbeyond : 2 * block * (den * 2 ^ power) < units rank * den := by
      rw [← hend.units_mul]
      exact Nat.mul_lt_mul_of_pos_right (units_strictMono hhigh) hden
    exact .inr ⟨2 * block, dist_lt_of_lt (.inl ⟨hnum, hbeyond⟩)⟩
  by_cases hlow : power ≠ 0 ∧ rank < power * block + block
  · have hend : IsMultiple power block := ⟨.inr (Nat.le_refl _), by decide⟩
    have hnum : block * (den * 2 ^ power) ≤ num := by
      have hle : 2 ^ (power + 52) * den ≤ num :=
        (Nat.le_div_iff_mul_le hden).mp (hlower hlow.1)
      rw [Nat.pow_add, Nat.mul_right_comm, Nat.mul_comm (2 ^ power), Nat.mul_comm] at hle
      exact hle
    have hbeyond : units rank * den < block * (den * 2 ^ power) := by
      rw [← hend.units_mul]
      exact Nat.mul_lt_mul_of_pos_right (units_strictMono hlow.2) hden
    exact .inr ⟨block, dist_lt_of_lt (.inr ⟨hbeyond, hnum⟩)⟩
  · refine .inl ⟨rank - power * block, ?_, ?_⟩
    · unfold IsMultiple
      simp only [block] at *
      omega
    · simp only [block] at *
      omega

/-- The rank of a fraction is nearest to it. -/
theorem isNearest_rankOf (hden : 0 < den) : IsNearest (num * unit) den (rankOf num den) := by
  obtain ⟨hupper, hlower⟩ := log2_sub_bounds (num * unit / den)
  have hrank : rankOf num den = ((num * unit / den).log2 - 52) * block +
      roundHalfEven (num * unit) (den * 2 ^ ((num * unit / den).log2 - 52)) := rfl
  rw [hrank]
  generalize num * unit = value at *
  generalize (value / den).log2 - 52 = power at *
  obtain ⟨hmost, hleast⟩ := @roundHalfEven_bounds value den power
  have hround := @roundHalfEven_nearest value _ (Nat.mul_pos hden (Nat.two_pow_pos power))
  generalize roundHalfEven value (den * 2 ^ power) = s at *
  have hs : IsMultiple power s := by
    refine ⟨?_, hmost hupper⟩
    by_cases hpower : power = 0
    · exact .inl hpower
    · exact .inr (hleast (hlower hpower))
  have hcases := isMultiple_or_beyond hden hupper hlower
  constructor
  · intro rank
    rw [hs.units_mul]
    rcases hcases rank with ⟨t, ht, rfl⟩ | ⟨t, hlt⟩
    · rw [ht.units_mul]
      exact (hround t).1
    · exact Nat.le_of_lt (Nat.lt_of_le_of_lt (hround t).1 hlt)
  · intro rank hne heq
    rw [hs.units_mul] at heq
    rcases hcases rank with ⟨t, ht, rfl⟩ | ⟨t, hlt⟩
    · rw [ht.units_mul] at heq
      have heven := (hround t).2 (fun hts => hne (hts ▸ rfl)) heq
      simp only [block]
      omega
    · exact absurd heq (Nat.ne_of_lt (Nat.lt_of_le_of_lt (hround t).1 hlt))

/-! ## Decimals -/

/-- A fraction below half of the smallest magnitude is rounded to zero. -/
theorem ofFraction_eq_zero (negative : Bool) (h : 2 * (num * unit) < den) :
    ofFraction negative num den = zero negative := by
  have hdiv : num * unit / den = 0 := Nat.div_eq_of_lt (by omega)
  have hround : roundHalfEven (num * unit) den = 0 := by
    unfold roundHalfEven
    rw [hdiv, Nat.mod_eq_of_lt (by omega)]
    exact if_pos h
  have hrank : rankOf num den = 0 := by
    unfold rankOf
    rw [hdiv]
    show 0 * block + roundHalfEven (num * unit) (den * 1) = 0
    rw [Nat.zero_mul, Nat.zero_add, Nat.mul_one, hround]
  unfold ofFraction
  simp only [hrank]
  rfl

theorem exists_two_mul_unit_le : ∃ n ≤ 400, 2 * unit ≤ 10 ^ n :=
  ⟨400, Nat.le_refl _, by decide +kernel⟩

/-- A decimal is rounded as the fraction it is, also when it is settled without its power. -/
theorem ofDecimal_eq (negative : Bool) (coefficient : Nat) (exponent : Int) :
    ofDecimal negative coefficient exponent =
      ofFraction negative (coefficient * 10 ^ exponent.toNat) (10 ^ (-exponent).toNat) := by
  have hden : 0 < 10 ^ (-exponent).toNat := Nat.pow_pos (by decide)
  by_cases h0 : coefficient = 0
  · rw [h0, ofFraction_eq_zero negative (by simp)]
    rfl
  by_cases hhigh : 400 < exponent
  · have hinfinite : ofDecimal negative coefficient exponent = .infinite negative := by
      unfold ofDecimal
      rw [if_neg h0, if_pos hhigh]
    have hceiling := (ofDecimal_eq_infinite_iff negative coefficient exponent).mp hinfinite
    rw [hinfinite, (ofFraction_eq_infinite_iff negative hden).mpr hceiling]
  by_cases hlow : exponent + (Nat.toDigits 10 coefficient).length < -400
  · have hnone : exponent.toNat = 0 := by omega
    obtain ⟨n, hn, hunit⟩ := exists_two_mul_unit_le
    have hsmall : 2 * (coefficient * unit) < 10 ^ (-exponent).toNat := by
      calc 2 * (coefficient * unit) = coefficient * (2 * unit) := Nat.mul_left_comm ..
        _ < 10 ^ (Nat.toDigits 10 coefficient).length * 10 ^ n :=
          Nat.mul_lt_mul_of_lt_of_le (lt_ten_pow_length_toDigits coefficient) hunit
            (Nat.pow_pos (by decide))
        _ = 10 ^ ((Nat.toDigits 10 coefficient).length + n) := (Nat.pow_add ..).symm
        _ ≤ 10 ^ (-exponent).toNat := Nat.pow_le_pow_right (by decide) (by omega)
    rw [ofDecimal_eq_zero negative hlow, hnone, Nat.pow_zero, Nat.mul_one,
      ofFraction_eq_zero negative hsmall]
  · exact ofDecimal_eq_ofFraction negative h0 (by omega) (by omega)

end Binary64

/-! ## Numerals -/

open Binary64

/-- A numeral rounds to a number: to the nearest magnitude with its sign, or to infinity if that is
past the last one. -/
inductive Numeral.RoundsTo : Numeral → Binary64 → Prop where
  | finite {negative coefficient exponent rank} (h : rank < magnitudes) :
      IsNearest (coefficient * 10 ^ exponent.toNat * unit) (10 ^ (-exponent).toNat) rank →
      RoundsTo (.finite negative coefficient exponent) (.finite negative ⟨rank, h⟩)
  | overflow {negative coefficient exponent rank} : magnitudes ≤ rank →
      IsNearest (coefficient * 10 ^ exponent.toNat * unit) (10 ^ (-exponent).toNat) rank →
      RoundsTo (.finite negative coefficient exponent) (.infinite negative)
  | infinite {negative} : RoundsTo (.infinite negative) (.infinite negative)
  | nan : RoundsTo .nan .nan

/-- The number of a numeral is what the numeral rounds to. -/
theorem Numeral.roundsTo_iff {n : Numeral} {x : Binary64} : n.RoundsTo x ↔ x = .ofNumeral n := by
  have hden (exponent : Int) : 0 < 10 ^ (-exponent).toNat := Nat.pow_pos (by decide)
  constructor
  · intro h
    cases h with
    | finite h hnearest =>
      obtain rfl := hnearest.unique (hden _) (isNearest_rankOf (hden _))
      rw [ofNumeral, ofDecimal_eq, ofFraction, dif_pos h]
    | overflow h hnearest =>
      obtain rfl := hnearest.unique (hden _) (isNearest_rankOf (hden _))
      rw [ofNumeral, ofDecimal_eq, ofFraction, dif_neg (Nat.not_lt_of_le h)]
    | infinite | nan => rfl
  · rintro rfl
    cases n with
    | finite negative coefficient exponent =>
      rw [ofNumeral, ofDecimal_eq, ofFraction]
      split
      case isTrue h => exact .finite h (isNearest_rankOf (hden exponent))
      case isFalse h => exact .overflow (Nat.le_of_not_lt h) (isNearest_rankOf (hden exponent))
    | infinite negative => exact .infinite
    | nan => exact .nan

end Splice
