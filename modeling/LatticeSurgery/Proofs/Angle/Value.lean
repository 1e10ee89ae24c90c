import LatticeSurgery.Angle
import LatticeSurgery.Proofs.Result
import Mathlib.Algebra.Order.Field.Basic
import Mathlib.Algebra.Order.Field.Rat
import Mathlib.Data.Rat.Lemmas
import Mathlib.Tactic.FieldSimp
import Mathlib.Tactic.NormNum
import Mathlib.Tactic.Ring

namespace LatticeSurgery.Angle

open Result (bind_eq_ok ok_bind pure_eq_ok)

/-! # Values of angles

What the operations on stored pairs do to the rational numbers that the pairs stand
for. -/

theorem value_eq_div (angle : Angle) : angle.value = angle.numer / angle.denom :=
  Rat.divInt_eq_div _ _

theorem denom_cast_ne_zero (angle : Angle) : (angle.denom : ℚ) ≠ 0 :=
  Int.cast_ne_zero.mpr angle.denom_ne_zero

@[simp] theorem value_zero : zero.value = 0 := by norm_num [value_eq_div, zero]

@[simp] theorem value_whole : whole.value = 1 := by norm_num [value_eq_div, whole]

@[simp] theorem value_half : half.value = 1 / 2 := by norm_num [value_eq_div, half]

@[simp] theorem value_quarter : quarter.value = 1 / 4 := by norm_num [value_eq_div, quarter]

@[simp] theorem value_negQuarter : negQuarter.value = -(1 / 4) := by
  norm_num [value_eq_div, negQuarter]

@[simp] theorem value_eighth : eighth.value = 1 / 8 := by norm_num [value_eq_div, eighth]

theorem ext_fields {left right : Angle} (numer : left.numer = right.numer)
    (denom : left.denom = right.denom) : left = right := by
  cases left
  cases right
  cases numer
  cases denom
  rfl

theorem ofWords_eq_ok {numer denom : Int} {angle : Angle} (made : ofWords numer denom = .ok angle) :
    angle.numer = numer ∧ angle.denom = denom := by
  rw [ofWords, ofPair?] at made
  split at made
  · next found =>
      split at found <;> simp_all
      rcases made with rfl
      cases found
      exact ⟨rfl, rfl⟩
  · cases made

theorem ofWords_of_fits {numer denom : Int} (numerFits : Word.Fits64 numer)
    (denomFits : Word.Fits64 denom) (nonzero : denom ≠ 0) :
    ofWords numer denom = .ok ⟨numer, denom, numerFits, denomFits, nonzero⟩ := by
  rw [ofWords, ofPair?, dif_pos ⟨numerFits, denomFits, nonzero⟩]

/-! ## Signs and magnitudes -/

theorem value_of_neg {angle negated : Angle} (computed : angle.neg = .ok negated) :
    negated.value = -angle.value := by
  rcases ofWords_eq_ok computed with ⟨numer, denom⟩
  rw [value_eq_div, value_eq_div, numer, denom, Int.cast_neg, neg_div]

theorem neg_of_neg {angle negated : Angle} (computed : angle.neg = .ok negated) :
    negated.neg = .ok angle := by
  rcases ofWords_eq_ok computed with ⟨numer, denom⟩
  rw [neg, numer, denom, neg_neg, ofWords, ofPair?_self]

/-- An angle with a given magnitude has the sign of its stored numerator. -/
theorem value_of_hasMagnitude {angle magnitude : Angle}
    (tested : angle.hasMagnitude magnitude = .ok true) :
    angle.value = if angle.isNegative then -magnitude.value else magnitude.value := by
  rw [hasMagnitude, bind_eq_ok] at tested
  rcases tested with ⟨absolute, computed, same⟩
  have sameValue : absolute.value = magnitude.value := of_decide_eq_true (Except.ok.inj same)
  rw [abs] at computed
  split at computed
  · next negative => rw [if_pos negative, ← sameValue, value_of_neg computed, neg_neg]
  · next nonnegative =>
      cases computed
      rw [if_neg nonnegative, sameValue]

theorem value_of_isQuarter {angle : Angle} (tested : angle.isQuarter = .ok true) :
    angle.value = if angle.isNegative then -(1 / 4) else 1 / 4 := by
  simpa using value_of_hasMagnitude tested

/-- Every numerator but the least one has an opposite. -/
theorem exists_neg_of_numer_ne {angle : Angle} (numer_ne : angle.numer ≠ -Word.limit64) :
    ∃ negated, angle.neg = .ok negated ∧ negated.numer = -angle.numer ∧
      negated.denom = angle.denom := by
  have fits := angle.numer_fits
  have negatedFits : Word.Fits64 (-angle.numer) := by
    simp only [Word.Fits64, Word.limit64] at *
    omega
  rw [neg, ofWords_of_fits negatedFits angle.denom_fits angle.denom_ne_zero]
  exact ⟨_, rfl, rfl, rfl⟩

theorem exists_hasMagnitude {angle : Angle} (numer_ne : angle.numer ≠ -Word.limit64)
    (magnitude : Angle) : ∃ answer, angle.hasMagnitude magnitude = .ok answer := by
  rw [hasMagnitude, abs]
  split
  · rcases exists_neg_of_numer_ne numer_ne with ⟨negated, computed, _⟩
    rw [computed]
    exact ⟨_, rfl⟩
  · exact ⟨_, rfl⟩

/-! ## Regular angles -/

/-- An angle whose sign is that of its numerator, and which has an opposite. -/
structure Regular (angle : Angle) : Prop where
  denom_pos : 0 < angle.denom
  numer_ne : angle.numer ≠ -Word.limit64

instance (angle : Angle) : Decidable angle.Regular :=
  decidable_of_iff (0 < angle.denom ∧ angle.numer ≠ -Word.limit64)
    ⟨fun fields => ⟨fields.1, fields.2⟩, fun regular => ⟨regular.denom_pos, regular.numer_ne⟩⟩

namespace Regular

variable {angle : Angle} (regular : angle.Regular)

include regular

theorem isNegative_iff : angle.isNegative = true ↔ angle.value < 0 := by
  have positive : (0 : ℚ) < angle.denom := Int.cast_pos.mpr regular.denom_pos
  rw [isNegative, decide_eq_true_eq, value_eq_div, div_lt_iff₀ positive, zero_mul, Int.cast_lt_zero]

theorem exists_neg : ∃ negated, angle.neg = .ok negated ∧ negated.Regular := by
  rcases exists_neg_of_numer_ne regular.numer_ne with ⟨negated, computed, numer, denom⟩
  have fits := angle.numer_fits
  refine ⟨negated, computed, denom ▸ regular.denom_pos, ?_⟩
  simp only [numer, Word.Fits64, Word.limit64] at *
  omega

theorem exists_abs : ∃ absolute, angle.abs = .ok absolute ∧ absolute.value = |angle.value| := by
  rw [abs]
  cases sign : angle.isNegative with
  | true =>
      rcases regular.exists_neg with ⟨negated, computed, _⟩
      refine ⟨negated, computed, ?_⟩
      rw [value_of_neg computed, abs_of_neg (regular.isNegative_iff.mp sign)]
  | false =>
      have nonnegative : ¬ angle.value < 0 := by
        rw [← regular.isNegative_iff, sign]
        exact Bool.false_ne_true
      exact ⟨angle, rfl, (abs_of_nonneg (not_lt.mp nonnegative)).symm⟩

theorem hasMagnitude_eq (magnitude : Angle) :
    angle.hasMagnitude magnitude = .ok (decide (|angle.value| = magnitude.value)) := by
  rcases regular.exists_abs with ⟨absolute, computed, value⟩
  rw [hasMagnitude, computed, ok_bind, pure_eq_ok, Except.ok.injEq, decide_eq_decide, Same, value]

end Regular

theorem regular_of_abs_lt {angle : Angle} (positive : 0 < angle.denom) (small : |angle.value| < 1) :
    angle.Regular := by
  have denomPositive : (0 : ℚ) < angle.denom := Int.cast_pos.mpr positive
  have numerSmall : |angle.numer| < angle.denom := by
    rw [value_eq_div, abs_div, abs_of_pos denomPositive, div_lt_one denomPositive] at small
    exact_mod_cast small
  have fits := angle.denom_fits
  refine ⟨positive, fun least => ?_⟩
  rw [least, abs_neg, Word.limit64, abs_of_pos (by norm_num)] at numerSmall
  rw [Word.Fits64, Word.limit64] at fits
  omega

private theorem fields_of_abs {angle absolute : Angle} (computed : angle.abs = .ok absolute) :
    0 ≤ absolute.numer ∧ absolute.denom = angle.denom ∧ angle.numer ≠ -Word.limit64 := by
  rw [abs] at computed
  split at computed
  · next sign =>
      have numer : angle.numer < 0 := of_decide_eq_true sign
      have negated := ofWords_eq_ok computed
      have fits := absolute.numer_fits
      rw [negated.1, Word.Fits64] at fits
      exact ⟨by omega, negated.2, by omega⟩
  · next sign =>
      have numer : ¬ angle.numer < 0 := fun negative => sign (decide_eq_true negative)
      cases computed
      rw [Word.limit64]
      exact ⟨by omega, rfl, by omega⟩

/-- Only regular angles pass the test for a positive magnitude. -/
theorem hasMagnitude_eq_ok_true {angle magnitude : Angle} (positive : 0 < magnitude.value) :
    angle.hasMagnitude magnitude = .ok true ↔
      angle.Regular ∧ |angle.value| = magnitude.value := by
  constructor
  · intro tested
    have regular : angle.Regular := by
      rw [hasMagnitude, bind_eq_ok] at tested
      rcases tested with ⟨absolute, computed, same⟩
      have value : absolute.value = magnitude.value := of_decide_eq_true (Except.ok.inj same)
      rcases fields_of_abs computed with ⟨numer, denom, numerNe⟩
      refine ⟨?_, numerNe⟩
      rw [← denom]
      by_contra negative
      have nonpositive : absolute.value ≤ 0 := by
        rw [value_eq_div]
        exact div_nonpos_of_nonneg_of_nonpos (Int.cast_nonneg numer)
          (Int.cast_nonpos.mpr (not_lt.mp negative))
      rw [value] at nonpositive
      exact absurd positive (not_lt.mpr nonpositive)
    rw [regular.hasMagnitude_eq, Except.ok.injEq, decide_eq_true_eq] at tested
    exact ⟨regular, tested⟩
  · intro size
    rw [size.1.hasMagnitude_eq, decide_eq_true size.2]

theorem isQuarter_quarter : quarter.isQuarter = .ok true :=
  (hasMagnitude_eq_ok_true (by norm_num)).mpr ⟨⟨by decide, by decide⟩, by norm_num⟩

theorem isQuarter_negQuarter : negQuarter.isQuarter = .ok true :=
  (hasMagnitude_eq_ok_true (by norm_num)).mpr ⟨⟨by decide, by decide⟩, by norm_num⟩

/-- The amounts of the basic rotations. -/
def IsBasic (angle : Angle) : Prop :=
  |angle.value| = 1 / 2 ∨ |angle.value| = 1 / 4 ∨ |angle.value| = 1 / 8

instance (angle : Angle) : Decidable angle.IsBasic := inferInstanceAs (Decidable (_ ∨ _ ∨ _))

theorem Regular.isBasic_eq {angle : Angle} (regular : angle.Regular) :
    angle.isBasic = .ok (decide angle.IsBasic) := by
  have sizes : decide angle.IsBasic = (decide (|angle.value| = half.value) ||
      (decide (|angle.value| = quarter.value) || decide (|angle.value| = eighth.value))) := by
    rw [value_half, value_quarter, value_eighth, ← Bool.decide_or, ← Bool.decide_or]
    rfl
  rw [sizes, isBasic, isHalf, isQuarter, isEighth, regular.hasMagnitude_eq,
    regular.hasMagnitude_eq, regular.hasMagnitude_eq, ok_bind, ok_bind]
  cases decide (|angle.value| = half.value) <;> cases decide (|angle.value| = quarter.value) <;> rfl

private theorem regular_of_isBasic {angle : Angle} (basic : angle.isBasic = .ok true) :
    angle.Regular := by
  rw [isBasic, bind_eq_ok] at basic
  rcases basic with ⟨isHalf, half, basic⟩
  cases isHalf with
  | true => exact ((hasMagnitude_eq_ok_true (by norm_num)).mp half).1
  | false =>
      rw [if_neg Bool.false_ne_true, bind_eq_ok] at basic
      rcases basic with ⟨isQuarter, quarter, basic⟩
      cases isQuarter with
      | true => exact ((hasMagnitude_eq_ok_true (by norm_num)).mp quarter).1
      | false => exact ((hasMagnitude_eq_ok_true (by norm_num)).mp basic).1

theorem numer_ne_of_isBasic {angle : Angle} {answer : Bool} (tested : angle.isBasic = .ok answer) :
    angle.numer ≠ -Word.limit64 := by
  rcases bind_eq_ok.mp tested with ⟨isHalf, half, _⟩
  rcases bind_eq_ok.mp half with ⟨absolute, computed, _⟩
  exact (fields_of_abs computed).2.2

theorem isBasic_eq_ok_true {angle : Angle} :
    angle.isBasic = .ok true ↔ angle.Regular ∧ angle.IsBasic := by
  constructor
  · intro basic
    have regular := regular_of_isBasic basic
    rw [regular.isBasic_eq, Except.ok.injEq, decide_eq_true_eq] at basic
    exact ⟨regular, basic⟩
  · intro basic
    rw [basic.1.isBasic_eq, decide_eq_true basic.2]

theorem isBasic_half : half.isBasic = .ok true :=
  isBasic_eq_ok_true.mpr ⟨⟨by decide, by decide⟩, .inl (by norm_num)⟩

theorem isBasic_quarter : quarter.isBasic = .ok true :=
  isBasic_eq_ok_true.mpr ⟨⟨by decide, by decide⟩, .inr (.inl (by norm_num))⟩

theorem isBasic_negQuarter : negQuarter.isBasic = .ok true :=
  isBasic_eq_ok_true.mpr ⟨⟨by decide, by decide⟩, .inr (.inl (by norm_num))⟩

theorem isBasic_eighth : eighth.isBasic = .ok true :=
  isBasic_eq_ok_true.mpr ⟨⟨by decide, by decide⟩, .inr (.inr (by norm_num))⟩

/-! ## Reduction to lowest terms -/

/-- The words are divided by their greatest divisor, and the sign of the denominator is moved. -/
theorem make_eq {numer denom : Int} (nonzero : denom ≠ 0) :
    make numer denom = ofWords (Rat.divInt numer denom).num (Rat.divInt numer denom).den := by
  rw [Rat.num_divInt, Rat.den_divInt, if_neg nonzero, Int.gcd_comm, make]
  split
  · next isZero =>
      rw [isZero, Int.mul_zero, Int.zero_ediv, Int.gcd_zero_left,
        Nat.div_self (Int.natAbs_pos.mpr nonzero)]
      rfl
  split
  · next equal =>
      rw [equal, Int.sign_mul_self_eq_natAbs, Int.gcd_self,
        Nat.div_self (Int.natAbs_pos.mpr nonzero),
        Int.ediv_self (Int.natCast_ne_zero.mpr (Int.natAbs_ne_zero.mpr nonzero))]
      rfl
  · have divides := Int.gcd_dvd_right numer denom
    have divisorPositive : 0 < (numer.gcd denom : ℤ) :=
      Int.natCast_pos.mpr (Int.gcd_pos_of_ne_zero_right numer nonzero)
    rcases lt_or_gt_of_ne nonzero with negative | positive
    · have reducedNegative : denom / (numer.gcd denom : ℤ) < 0 :=
        Int.ediv_neg_of_neg_of_pos negative divisorPositive
      simp only [if_pos reducedNegative, Int.sign_eq_neg_one_of_neg negative, neg_one_mul]
      rw [Int.natCast_ediv, Int.ofNat_natAbs_of_nonpos negative.le, Int.neg_ediv_of_dvd divides,
        Int.neg_ediv_of_dvd (Int.gcd_dvd_left numer denom)]
    · have reducedPositive : 0 < denom / (numer.gcd denom : ℤ) :=
        Int.ediv_pos_of_pos_of_dvd positive divisorPositive.le divides
      simp only [if_neg reducedPositive.not_gt, Int.sign_eq_one_of_pos positive, one_mul]
      rw [Int.natCast_ediv, Int.natAbs_of_nonneg positive.le]

theorem value_of_make {numer denom : Int} {angle : Angle} (nonzero : denom ≠ 0)
    (made : make numer denom = .ok angle) : angle.value = numer / denom := by
  rw [make_eq nonzero] at made
  have fields := ofWords_eq_ok made
  rw [value_eq_div, fields.1, fields.2, Int.cast_natCast, Rat.num_div_den, Rat.divInt_eq_div]

end LatticeSurgery.Angle
