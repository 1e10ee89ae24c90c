import LatticeSurgery.Proofs.Angle.Dyadic
import Mathlib.Data.Rat.Floor

namespace LatticeSurgery.Angle

/-! # Angles modulo 2

Reduction gives one angle for all angles that differ by even integers. A numerator that does not fit
is replaced by a negative one, and whether this happens depends on the class and the denominator
alone. In lowest terms the denominator is the same for the whole class. -/

variable {angle left right reduced : Angle}

/-- The angles differ by an even integer. -/
def Congruent (left right : Angle) : Prop := ∃ turns : ℤ, left.value - right.value = 2 * turns

/-- The number in `[0, 2)` that differs from the angle by an even integer. -/
def residue (angle : Angle) : ℚ := angle.value - 2 * ⌊angle.value / 2⌋

theorem congruent_iff_residue_eq : left.Congruent right ↔ left.residue = right.residue := by
  constructor
  · intro congruent
    cases congruent with
    | intro turns difference =>
        have halves : left.value / 2 = right.value / 2 + turns := by linarith
        rw [residue, residue, halves, Int.floor_add_intCast]
        push_cast
        linarith
  · intro same
    rw [residue, residue] at same
    exact ⟨⌊left.value / 2⌋ - ⌊right.value / 2⌋, by push_cast; linarith⟩

instance (left right : Angle) : Decidable (left.Congruent right) :=
  decidable_of_iff _ congruent_iff_residue_eq.symm

theorem residue_bounds (angle : Angle) : 0 ≤ angle.residue ∧ angle.residue < 2 := by
  have below := Int.floor_le (angle.value / 2)
  have above := Int.lt_floor_add_one (angle.value / 2)
  rw [residue]
  constructor
  · linarith
  · linarith

theorem congruent_of_normalized (computed : angle.normalized = .ok reduced) :
    angle.Congruent reduced := by
  cases value_of_normalized computed with
  | intro turns reducedValue => exact ⟨turns, by rw [reducedValue]; ring⟩

theorem residue_of_normalized (computed : angle.normalized = .ok reduced) :
    reduced.residue = angle.residue :=
  (congruent_iff_residue_eq.mp (congruent_of_normalized computed)).symm

/-! ## Representatives -/

private theorem limit64_le_of_not_fits {word : Int} (nonnegative : 0 ≤ word)
    (wide : ¬ Word.Fits64 word) : Word.limit64 ≤ word := by
  by_contra smaller
  refine wide ⟨le_trans ?_ nonnegative, not_le.mp smaller⟩
  rw [Word.limit64]
  norm_num

/-- The numerator without whole turns, or the one below it when that does not fit. -/
theorem periodicNumer_of_fits {numer denom : Int} (positive : 0 < denom)
    (fits : Word.Fits64 denom) :
    periodicNumer numer denom =
      if Word.Fits64 (numer % (2 * denom)) then numer % (2 * denom)
      else numer % (2 * denom) - 2 * denom := by
  have lower := Int.emod_nonneg numer (show 2 * denom ≠ 0 by omega)
  have upper := Int.emod_lt_of_pos numer (show 0 < 2 * denom by omega)
  have bound := fits.2
  rw [periodicNumer]
  by_cases fitting : Word.Fits64 (numer % (2 * denom))
  · simp only [if_pos fitting]
  · have large := limit64_le_of_not_fits lower fitting
    have lowered : Word.Fits64 (numer % (2 * denom) - 2 * denom) := by
      rw [Word.limit64] at bound large
      exact ⟨by rw [Word.limit64]; omega, by rw [Word.limit64]; omega⟩
    simp only [if_neg fitting, if_pos lowered]

theorem abs_value_of_normalized (positive : 0 < angle.denom)
    (computed : angle.normalized = .ok reduced) : -2 < reduced.value ∧ reduced.value < 2 := by
  have lower := Int.emod_nonneg angle.numer (show 2 * angle.denom ≠ 0 by omega)
  have upper := Int.emod_lt_of_pos angle.numer (show 0 < 2 * angle.denom by omega)
  have bounds : -2 * angle.denom < periodicNumer angle.numer angle.denom ∧
      periodicNumer angle.numer angle.denom < 2 * angle.denom := by
    rw [periodicNumer_of_fits positive angle.denom_fits]
    split
    · omega
    · next wide =>
        have large := limit64_le_of_not_fits lower wide
        rw [Word.limit64] at large
        omega
  have divisor : (0 : ℚ) < angle.denom := Int.cast_pos.mpr positive
  rw [value_of_make angle.denom_ne_zero computed]
  constructor
  · rw [lt_div_iff₀ divisor]
    exact_mod_cast bounds.1
  · rw [div_lt_iff₀ divisor]
    exact_mod_cast bounds.2

/-- With a denominator of which two fit, the representative is the residue. -/
theorem value_of_normalized_small (positive : 0 < angle.denom)
    (small : 2 * angle.denom ≤ Word.limit64) (computed : angle.normalized = .ok reduced) :
    reduced.value = angle.residue := by
  have below := (abs_value_of_normalized positive computed).2
  have nonnegative : 0 ≤ reduced.value := by
    rw [normalized_of_small positive small] at computed
    rw [value_of_make angle.denom_ne_zero computed]
    have lower := Int.emod_nonneg angle.numer (show 2 * angle.denom ≠ 0 by omega)
    exact div_nonneg (Int.cast_nonneg lower) (Int.cast_nonneg positive.le)
  have floor : ⌊reduced.value / 2⌋ = 0 :=
    Int.floor_eq_zero_iff.mpr ⟨by linarith, by linarith⟩
  rw [← residue_of_normalized computed, residue, floor]
  simp

/-! ## Uniqueness -/

/-- Angles in lowest terms that differ by an even integer have one denominator. -/
theorem Lowest.fields_of_congruent (leftLowest : left.Lowest) (rightLowest : right.Lowest)
    (congruent : left.Congruent right) :
    ∃ turns : ℤ, left.numer = right.numer + 2 * right.denom * turns ∧
      left.denom = right.denom := by
  cases congruent with
  | intro turns difference =>
      have nonzero := right.denom_cast_ne_zero
      have quotients : (left.numer : ℚ) / left.denom =
          ((right.numer + 2 * right.denom * turns : ℤ) : ℚ) / right.denom := by
        rw [value_eq_div, value_eq_div, sub_eq_iff_eq_add] at difference
        rw [difference]
        push_cast
        field_simp
        ring
      have coprime : (right.numer + 2 * right.denom * turns).gcd right.denom = 1 := by
        rw [mul_comm 2, mul_assoc, Int.gcd_add_mul_left_left]
        exact rightLowest.coprime
      exact ⟨turns, Rat.div_int_inj leftLowest.denom_pos rightLowest.denom_pos
        leftLowest.coprime coprime quotients⟩

/-- Reduction tells the classes apart and nothing else. -/
theorem Lowest.normalized_eq_iff (leftLowest : left.Lowest) (rightLowest : right.Lowest) :
    left.normalized = right.normalized ↔ left.Congruent right := by
  constructor
  · intro same
    rcases exists_normalized rightLowest.denom_pos with ⟨reduced, computed⟩
    rw [congruent_iff_residue_eq, ← residue_of_normalized computed,
      ← residue_of_normalized (same.trans computed)]
  · intro congruent
    rcases leftLowest.fields_of_congruent rightLowest congruent with ⟨turns, numerEq, denomEq⟩
    rw [normalized, normalized, numerEq, denomEq,
      periodicNumer_of_fits rightLowest.denom_pos right.denom_fits,
      periodicNumer_of_fits rightLowest.denom_pos right.denom_fits, Int.add_mul_emod_self_left]

/-- Reduced angles have the same value when they are of the same class. -/
theorem Lowest.same_normalized_iff {other : Angle} (leftLowest : left.Lowest)
    (rightLowest : right.Lowest) (leftEq : left.normalized = .ok reduced)
    (rightEq : right.normalized = .ok other) : reduced.Same other ↔ left.Congruent right := by
  rw [← leftLowest.normalized_eq_iff rightLowest, leftEq, rightEq, Except.ok.injEq]
  constructor
  · exact (lowest_of_make left.denom_ne_zero leftEq).ext
      (lowest_of_make right.denom_ne_zero rightEq)
  · intro same
    rw [same, Same]

end LatticeSurgery.Angle
