import Mathlib.Algebra.Group.Nat.Defs
import Splice.Binary64

/-!
# Rounding

Rounding looks at the value of a fraction only (`ofFraction_congr`), so it does not matter how a
decimal splits its value into a coefficient and a power of ten (`ofDecimal_shift`). It leaves every
magnitude where it is (`rankOf_units`).
-/

namespace Splice.Binary64

theorem unit_pos : 0 < unit := by decide +kernel

/-! ## Fractions -/

theorem roundHalfEven_mul (num den : Nat) {m : Nat} (hm : 0 < m) :
    roundHalfEven (num * m) (den * m) = roundHalfEven num den := by
  have htwice : 2 * (num * m % (den * m)) = 2 * (num % den) * m := by
    rw [Nat.mul_mod_mul_right, Nat.mul_assoc]
  unfold roundHalfEven
  simp only [Nat.mul_div_mul_right _ _ hm, htwice, Nat.mul_lt_mul_right hm]

theorem roundHalfEven_one (n : Nat) : roundHalfEven n 1 = n := by
  unfold roundHalfEven
  simp [Nat.mod_one]

theorem rankOf_mul (num den : Nat) {m : Nat} (hm : 0 < m) :
    rankOf (num * m) (den * m) = rankOf num den := by
  unfold rankOf
  rw [Nat.mul_right_comm num m unit, Nat.mul_div_mul_right _ _ hm]
  simp only [Nat.mul_right_comm den m, roundHalfEven_mul _ _ hm]

theorem rankOf_congr {num den num' den' : Nat} (hden : 0 < den) (hden' : 0 < den')
    (h : num * den' = num' * den) : rankOf num den = rankOf num' den' := by
  rw [← rankOf_mul num den hden', h, Nat.mul_comm den, rankOf_mul num' den' hden]

theorem ofFraction_congr {num den num' den' : Nat} (negative : Bool) (hden : 0 < den)
    (hden' : 0 < den') (h : num * den' = num' * den) :
    ofFraction negative num den = ofFraction negative num' den' := by
  unfold ofFraction
  simp only [rankOf_congr hden hden' h]

/-! ## Magnitudes -/

theorem units_of_lt {rank : Nat} (h : rank < block) : units rank = rank := by
  have he : exponent rank = 0 := by rw [exponent, Nat.div_eq_of_lt h]
  rw [units, significand, he, Nat.zero_mul]
  exact Nat.mul_one _

theorem significand_bounds {rank : Nat} (h : block ≤ rank) :
    block ≤ significand rank ∧ significand rank < 2 * block := by
  unfold significand exponent
  simp only [block] at *
  omega

theorem log2_units {rank : Nat} (h : block ≤ rank) : (units rank).log2 = 52 + exponent rank := by
  obtain ⟨hlow, hhigh⟩ := significand_bounds h
  have hle : 2 ^ (52 + exponent rank) ≤ units rank := by
    rw [Nat.pow_add]
    exact Nat.mul_le_mul_right _ hlow
  have hne : units rank ≠ 0 := Nat.ne_of_gt (Nat.lt_of_lt_of_le (Nat.two_pow_pos _) hle)
  refine (Nat.log2_eq_iff hne).mpr ⟨hle, ?_⟩
  rw [show 52 + exponent rank + 1 = 53 + exponent rank by omega, Nat.pow_add]
  exact Nat.mul_lt_mul_of_pos_right hhigh (Nat.two_pow_pos _)

/-- A magnitude is its own nearest. -/
theorem rankOf_units (rank : Nat) : rankOf (units rank) unit = rank := by
  have hround (power : Nat) : roundHalfEven (units rank * unit) (unit * Nat.pow 2 power) =
      roundHalfEven (units rank) (Nat.pow 2 power) := by
    rw [Nat.mul_comm unit, roundHalfEven_mul _ _ unit_pos]
  unfold rankOf
  simp only [Nat.mul_div_cancel _ unit_pos, hround]
  by_cases h : rank < block
  · -- below the first binade the rank counts units
    have hlog : rank.log2 - 52 = 0 := by
      by_cases h0 : rank = 0
      · simp [h0]
      · have := (Nat.log2_lt h0 (k := 52)).mpr h
        omega
    rw [units_of_lt h, hlog, Nat.zero_mul, Nat.zero_add]
    exact roundHalfEven_one rank
  · have hle : block ≤ rank := Nat.le_of_not_lt h
    have hsig : significand rank = rank - exponent rank * block := rfl
    have hbounds := significand_bounds hle
    have hmul : units rank = significand rank * 2 ^ exponent rank := rfl
    rw [log2_units hle, Nat.add_sub_cancel_left, hmul]
    have hone : roundHalfEven (significand rank * 2 ^ exponent rank) (2 ^ exponent rank) =
        significand rank := by
      have := roundHalfEven_mul (significand rank) 1 (Nat.two_pow_pos (exponent rank))
      rwa [Nat.one_mul, roundHalfEven_one] at this
    show exponent rank * block + roundHalfEven _ (2 ^ exponent rank) = rank
    rw [hone]
    omega

/-! ## Decimals -/

/-- A decimal below the reach of every magnitude is zero. -/
theorem ofDecimal_eq_zero {coefficient : Nat} {exponent : Int} (negative : Bool)
    (hlow : exponent + (Nat.toDigits 10 coefficient).length < -400) :
    ofDecimal negative coefficient exponent = zero negative := by
  unfold ofDecimal
  rw [if_neg (c := 400 < exponent) (by omega), if_pos hlow, ite_self]

/-- A decimal within reach of some magnitude is rounded as the fraction it is. -/
theorem ofDecimal_eq_ofFraction {coefficient : Nat} {exponent : Int} (negative : Bool)
    (h0 : coefficient ≠ 0) (hhigh : exponent ≤ 400)
    (hlow : -400 ≤ exponent + (Nat.toDigits 10 coefficient).length) :
    ofDecimal negative coefficient exponent =
      ofFraction negative (coefficient * 10 ^ exponent.toNat) (10 ^ (-exponent).toNat) := by
  unfold ofDecimal
  rw [if_neg h0, if_neg (by omega), if_neg (by omega)]
  cases exponent with
  | ofNat n => simp
  | negSucc n =>
    have hpos : (Int.negSucc n).toNat = 0 := rfl
    have hneg : (-Int.negSucc n).toNat = n + 1 := rfl
    simp only [hpos, hneg, Nat.pow_zero, Nat.mul_one]
    rfl

theorem toDigits_mul_pow {n : Nat} (h : n ≠ 0) (k : Nat) :
    Nat.toDigits 10 (n * 10 ^ k) = Nat.toDigits 10 n ++ List.replicate k '0' := by
  induction k with
  | zero => simp
  | succ k ih =>
    have hpos : 0 < n * 10 ^ k := Nat.mul_pos (Nat.pos_of_ne_zero h) (Nat.pow_pos (by decide))
    have hstep : n * 10 ^ (k + 1) = 10 * (n * 10 ^ k) + 0 := by
      rw [Nat.pow_succ, ← Nat.mul_assoc, Nat.mul_comm 10, Nat.add_zero]
    rw [hstep, ← Nat.toDigits_append_toDigits (by decide) hpos (by decide), ih,
      Nat.toDigits_zero, List.append_assoc, ← List.replicate_succ']

/-- Zeros at the end of a coefficient count as powers of ten. -/
theorem ofDecimal_shift (negative : Bool) (coefficient k : Nat) {exponent : Int}
    (h : exponent ≤ 400) :
    ofDecimal negative (coefficient * 10 ^ k) (exponent - k) =
      ofDecimal negative coefficient exponent := by
  by_cases h0 : coefficient = 0
  · unfold ofDecimal
    rw [if_pos h0, if_pos (by rw [h0, Nat.zero_mul])]
  have hpos : 0 < 10 ^ k := Nat.pow_pos (by decide)
  have h0' : coefficient * 10 ^ k ≠ 0 := Nat.mul_ne_zero h0 (Nat.ne_of_gt hpos)
  have hlength : exponent - k + (Nat.toDigits 10 (coefficient * 10 ^ k)).length =
      exponent + (Nat.toDigits 10 coefficient).length := by
    rw [toDigits_mul_pow h0, List.length_append, List.length_replicate]
    omega
  by_cases hlow : -400 ≤ exponent + (Nat.toDigits 10 coefficient).length
  · rw [ofDecimal_eq_ofFraction negative h0 h hlow,
      ofDecimal_eq_ofFraction negative h0' (by omega) (by omega)]
    refine ofFraction_congr negative (Nat.pow_pos (by decide)) (Nat.pow_pos (by decide)) ?_
    have hexp : k + ((exponent - k).toNat + (-exponent).toNat) =
        exponent.toNat + (-(exponent - k)).toNat := by omega
    rw [Nat.mul_assoc, ← Nat.pow_add, Nat.mul_assoc, ← Nat.pow_add, Nat.mul_assoc, ← Nat.pow_add,
      hexp]
  · rw [ofDecimal_eq_zero negative (by omega), ofDecimal_eq_zero negative (by omega)]

theorem ofDecimal_finite {coefficient : Nat} {exponent : Int} {sign : Bool} {rank : Fin magnitudes}
    (h : ofDecimal false coefficient exponent = .finite sign rank) (negative : Bool) :
    ofDecimal negative coefficient exponent = .finite negative rank := by
  have hfraction {num den : Nat} (h : ofFraction false num den = .finite sign rank) :
      ofFraction negative num den = .finite negative rank := by
    unfold ofFraction at h ⊢
    split at h
    · rw [dif_pos ‹_›]
      simp_all
    · simp at h
  unfold ofDecimal at h ⊢
  split at h
  · rw [if_pos ‹_›]
    simp_all [zero]
  rw [if_neg ‹_›]
  split at h
  · simp at h
  rw [if_neg ‹_›]
  split at h
  · rw [if_pos ‹_›]
    simp_all [zero]
  rw [if_neg ‹_›]
  split at h <;> exact hfraction h

end Splice.Binary64
