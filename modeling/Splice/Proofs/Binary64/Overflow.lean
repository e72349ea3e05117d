import Mathlib.Tactic.Ring
import Mathlib.Tactic.SplitIfs
import Splice.Proofs.Binary64.Rounding

/-!
# Overflow

Magnitudes end below a power of two, and what is nearer to this power than to the last magnitude, or
as near, is rounded to infinity (`ofFraction_eq_infinite_iff`). So a decimal is infinite if and only
if its exact value is as large as that (`ofDecimal_eq_infinite_iff`).
-/

namespace Splice.Binary64

/-- The midpoint of the last magnitude and the power of two after it. -/
def ceiling : Nat := (2 ^ 54 - 1) * 2 ^ 970

/-! ## Rounding up -/

theorem floor_le_roundHalfEven (num den : Nat) : num / den ≤ roundHalfEven num den := by
  unfold roundHalfEven
  dsimp only
  split_ifs <;> omega

theorem roundHalfEven_le (num den : Nat) : roundHalfEven num den ≤ num / den + 1 := by
  unfold roundHalfEven
  dsimp only
  split_ifs <;> omega

/-- What is rounded up to an even number begins half a unit below it. -/
theorem le_roundHalfEven_iff {num den : Nat} (hden : 0 < den) (n : Nat) :
    2 * n + 2 ≤ roundHalfEven num den ↔ (4 * n + 3) * den ≤ 2 * num := by
  have hdiv : den * (num / den) + num % den = num := Nat.div_add_mod num den
  have hmod : num % den < den := Nat.mod_lt num hden
  have hlow := floor_le_roundHalfEven num den
  have hhigh := roundHalfEven_le num den
  have hmid : (4 * n + 3) * den = 2 * (den * (2 * n + 1)) + den := by ring
  have hnext : den * (2 * n + 2) = den * (2 * n + 1) + den := by ring
  have hbelow : den * (2 * n + 1) = den * (2 * n) + den := by ring
  rcases Nat.lt_trichotomy (num / den) (2 * n + 1) with hlt | heq | hgt
  · have hle : den * (num / den) ≤ den * (2 * n) := Nat.mul_le_mul_left den (by omega)
    exact iff_of_false (by omega) (by omega)
  · -- the floor is the odd number below, so a tie goes up
    rw [heq] at hdiv
    have hround : 2 * n + 2 ≤ roundHalfEven num den ↔ den ≤ 2 * (num % den) := by
      unfold roundHalfEven
      dsimp only
      rw [heq]
      split_ifs <;> omega
    rw [hround]
    omega
  · have hle : den * (2 * n + 2) ≤ den * (num / den) := Nat.mul_le_mul_left den (by omega)
    exact iff_of_true (by omega) (by omega)

/-! ## The last rank -/

/-- The power of two that a magnitude is rounded to a multiple of, and the magnitude itself. -/
theorem log2_sub_bounds (v : Nat) :
    v < 2 ^ (v.log2 - 52 + 53) ∧ (v.log2 - 52 ≠ 0 → 2 ^ (v.log2 - 52 + 52) ≤ v) := by
  constructor
  · have hlt : v < 2 ^ (v.log2 + 1) := Nat.lt_log2_self
    exact Nat.lt_of_lt_of_le hlt (Nat.pow_le_pow_right (by decide) (by omega))
  · intro hpower
    have hne : v ≠ 0 := by
      rintro rfl
      exact hpower rfl
    have hexponent : v.log2 - 52 + 52 = v.log2 := by omega
    rw [hexponent]
    exact Nat.log2_self_le hne

theorem roundHalfEven_bounds {num den power : Nat} :
    (num / den < 2 ^ (power + 53) → roundHalfEven num (den * 2 ^ power) ≤ 2 * block) ∧
      (2 ^ (power + 52) ≤ num / den → block ≤ roundHalfEven num (den * 2 ^ power)) := by
  have hfloor : num / (den * 2 ^ power) = num / den / 2 ^ power :=
    (Nat.div_div_eq_div_mul num den (2 ^ power)).symm
  have hpos : 0 < 2 ^ power := Nat.two_pow_pos power
  constructor
  · intro h
    rw [Nat.pow_add, Nat.mul_comm] at h
    have hlt : num / den / 2 ^ power < 2 ^ 53 := (Nat.div_lt_iff_lt_mul hpos).mpr h
    have hle := roundHalfEven_le num (den * 2 ^ power)
    rw [hfloor] at hle
    exact Nat.le_trans hle hlt
  · intro h
    rw [Nat.pow_add, Nat.mul_comm] at h
    have hle : 2 ^ 52 ≤ num / den / 2 ^ power := (Nat.le_div_iff_mul_le hpos).mpr h
    rw [← hfloor] at hle
    exact Nat.le_trans hle (floor_le_roundHalfEven _ _)

theorem unit_eq : unit = 2 ^ 1074 := by decide +kernel

theorem two_pow_le_mul_unit {n k : Nat} (h : k ≤ n + 1074) : 2 ^ k ≤ 2 ^ n * unit := by
  rw [unit_eq, ← Nat.pow_add]
  exact Nat.pow_le_pow_right (by decide) h

theorem mul_unit_le_two_pow {n k : Nat} (h : n + 1074 ≤ k) : 2 ^ n * unit ≤ 2 ^ k := by
  rw [unit_eq, ← Nat.pow_add]
  exact Nat.pow_le_pow_right (by decide) h

theorem ceiling_bounds : 2 ^ 1023 ≤ ceiling ∧ ceiling ≤ 2 ^ 1024 := by decide +kernel

/-- In the last block a magnitude is rounded up to the end of it from the midpoint on. -/
theorem last_block_le_roundHalfEven_iff {num den : Nat} (hden : 0 < den) :
    2 * block ≤ roundHalfEven (num * unit) (den * 2 ^ 2045) ↔ ceiling * den ≤ num := by
  have hpow : 2 ^ 2045 = 2 ^ 970 * (2 * unit) := by decide +kernel
  have hmid : (4 * (block - 1) + 3) * (den * 2 ^ 2045) = ceiling * den * (2 * unit) := by
    rw [hpow, ceiling]
    generalize 2 ^ 970 = scale
    ring
  have htwice : 2 * (num * unit) = num * (2 * unit) := Nat.mul_left_comm ..
  have hpos : 0 < den * 2 ^ 2045 := Nat.mul_pos hden (by decide +kernel)
  have hround := @le_roundHalfEven_iff (num * unit) _ hpos (block - 1)
  rw [hmid, htwice, Nat.mul_le_mul_right_iff (Nat.mul_pos (by decide) unit_pos)] at hround
  exact hround

/-- What is rounded past the last magnitude begins at the midpoint. -/
theorem magnitudes_le_rankOf_iff {num den : Nat} (hden : 0 < den) :
    magnitudes ≤ rankOf num den ↔ ceiling * den ≤ num := by
  obtain ⟨hupper, hlower⟩ := log2_sub_bounds (num * unit / den)
  obtain ⟨hfloor, hceil⟩ := ceiling_bounds
  have hrank : rankOf num den = ((num * unit / den).log2 - 52) * block +
      roundHalfEven (num * unit) (den * 2 ^ ((num * unit / den).log2 - 52)) := rfl
  generalize (num * unit / den).log2 - 52 = power at hupper hlower hrank
  obtain ⟨hmost, hleast⟩ := @roundHalfEven_bounds (num * unit) den power
  rw [hrank]
  rcases Nat.lt_trichotomy power 2045 with hlt | rfl | hgt
  · have hround := hmost hupper
    have hnum : num < 2 ^ 1023 * den := by
      have hpow : 2 ^ (power + 53) ≤ 2 ^ 1023 * unit := two_pow_le_mul_unit (by omega)
      have hmul : num * unit < 2 ^ 1023 * unit * den :=
        (Nat.div_lt_iff_lt_mul hden).mp (Nat.lt_of_lt_of_le hupper hpow)
      rw [Nat.mul_right_comm] at hmul
      exact Nat.lt_of_mul_lt_mul_right hmul
    refine iff_of_false (by simp only [magnitudes, block] at *; omega) (Nat.not_le_of_lt ?_)
    exact Nat.lt_of_lt_of_le hnum (Nat.mul_le_mul_right den hfloor)
  · have hsum : 2045 * block + 2 * block = magnitudes := rfl
    rw [← hsum, Nat.add_le_add_iff_left]
    exact last_block_le_roundHalfEven_iff hden
  · have hround := hleast (hlower (by omega))
    have hnum : 2 ^ 1024 * den ≤ num := by
      have hpow : 2 ^ 1024 * unit ≤ 2 ^ (power + 52) := mul_unit_le_two_pow (by omega)
      have hmul : 2 ^ 1024 * unit * den ≤ num * unit :=
        (Nat.le_div_iff_mul_le hden).mp (Nat.le_trans hpow (hlower (by omega)))
      rw [Nat.mul_right_comm] at hmul
      exact Nat.le_of_mul_le_mul_right hmul unit_pos
    refine iff_of_true (by simp only [magnitudes, block] at *; omega) ?_
    exact Nat.le_trans (Nat.mul_le_mul_right den hceil) hnum

theorem ofFraction_eq_infinite_iff (negative : Bool) {num den : Nat} (hden : 0 < den) :
    ofFraction negative num den = .infinite negative ↔ ceiling * den ≤ num := by
  rw [← magnitudes_le_rankOf_iff hden, ofFraction]
  split_ifs with hrank
  · simp [hrank]
  · simpa using hrank

/-! ## Decimals -/

theorem ceiling_pos : 0 < ceiling := by decide +kernel

theorem ceiling_le_ten_pow {n : Nat} (h : 400 ≤ n) : ceiling ≤ 10 ^ n := by
  have hpow : ceiling ≤ 10 ^ 400 := by decide +kernel
  generalize 400 = m at *
  exact Nat.le_trans hpow (Nat.pow_le_pow_right (by decide) h)

theorem lt_ten_pow_length_toDigits (n : Nat) : n < 10 ^ (Nat.toDigits 10 n).length :=
  (Nat.length_toDigits_le_iff (by decide) Nat.length_toDigits_pos).mp (Nat.le_refl _)

/-- A decimal is infinite if and only if its exact value is at the midpoint or past it. -/
theorem ofDecimal_eq_infinite_iff (negative : Bool) (coefficient : Nat) (exponent : Int) :
    ofDecimal negative coefficient exponent = .infinite negative ↔
      ceiling * 10 ^ (-exponent).toNat ≤ coefficient * 10 ^ exponent.toNat := by
  by_cases h0 : coefficient = 0
  · have hpos : 0 < ceiling * 10 ^ (-exponent).toNat :=
      Nat.mul_pos ceiling_pos (Nat.pow_pos (by decide))
    unfold ofDecimal
    rw [if_pos h0, h0, Nat.zero_mul]
    exact iff_of_false Binary64.noConfusion (Nat.not_le_of_lt hpos)
  by_cases hhigh : 400 < exponent
  · have hnone : (-exponent).toNat = 0 := by omega
    have hpow : ceiling ≤ 10 ^ exponent.toNat := ceiling_le_ten_pow (by omega)
    unfold ofDecimal
    rw [if_neg h0, if_pos hhigh, hnone, Nat.pow_zero, Nat.mul_one]
    refine iff_of_true rfl (Nat.le_trans hpow ?_)
    exact Nat.le_mul_of_pos_left _ (Nat.pos_of_ne_zero h0)
  by_cases hlow : exponent + (Nat.toDigits 10 coefficient).length < -400
  · have hnone : exponent.toNat = 0 := by omega
    have hpow : 10 ^ (Nat.toDigits 10 coefficient).length ≤ 10 ^ (-exponent).toNat :=
      Nat.pow_le_pow_right (by decide) (by omega)
    rw [ofDecimal_eq_zero negative hlow, hnone, Nat.pow_zero, Nat.mul_one]
    refine iff_of_false Binary64.noConfusion (Nat.not_le_of_lt ?_)
    exact Nat.lt_of_lt_of_le (lt_ten_pow_length_toDigits coefficient)
      (Nat.le_trans hpow (Nat.le_mul_of_pos_left _ ceiling_pos))
  · rw [ofDecimal_eq_ofFraction negative h0 (by omega) (by omega)]
    exact ofFraction_eq_infinite_iff negative (Nat.pow_pos (by decide))

/-! ## Signs -/

/-- A number with its sign bit clear. What is no number has no sign. -/
def IsUnsigned (x : Binary64) : Prop := ∃ bits < half, x.bits? = some bits

theorem isUnsigned_finite (rank : Fin magnitudes) : IsUnsigned (.finite false rank) :=
  ⟨0 * half + rank, by have := rank.isLt; simp only [half, magnitudes] at *; omega, rfl⟩

theorem isUnsigned_infinite : IsUnsigned (.infinite false) := ⟨magnitudes, by decide, rfl⟩

theorem isUnsigned_ofFraction (num den : Nat) : IsUnsigned (ofFraction false num den) := by
  unfold ofFraction
  split
  · exact isUnsigned_finite _
  · exact isUnsigned_infinite

theorem isUnsigned_ofDecimal (coefficient : Nat) (exponent : Int) :
    IsUnsigned (ofDecimal false coefficient exponent) := by
  unfold ofDecimal
  split_ifs
  · exact isUnsigned_finite 0
  · exact isUnsigned_infinite
  · exact isUnsigned_finite 0
  · cases exponent <;> exact isUnsigned_ofFraction _ _

theorem IsUnsigned.isFinite_eq_false_iff {x : Binary64} (h : IsUnsigned x) :
    x.isFinite = false ↔ x = .infinite false := by
  obtain ⟨bits, hlt, hbits⟩ := h
  cases x with
  | finite negative rank => simp [isFinite]
  | infinite negative =>
    cases negative with
    | false => simp [isFinite]
    | true =>
      simp only [bits?, Bool.toNat_true, Option.some.injEq] at hbits
      omega
  | nan => simp [bits?] at hbits

end Splice.Binary64
