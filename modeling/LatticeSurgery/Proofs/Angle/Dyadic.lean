import LatticeSurgery.Proofs.Angle.Lowest
import Mathlib.Algebra.BigOperators.Group.List.Basic
import Mathlib.Data.Int.Lemmas
import Mathlib.Data.Nat.Prime.Basic
import Mathlib.Tactic.Linarith
import Mathlib.Tactic.LinearCombination

namespace LatticeSurgery.Angle

open Result (bind_eq_ok exists_mapM_of_forall exists_of_mem_right mapM_eq_ok ok_bind)

/-! # Sums of powers of one half

The terms of a dyadic angle add up to the angle, except for an integer: whole turns
are taken off when the angle is reduced, and half turns are left out of the terms. -/

theorem powerOfTwo_eq (exponent : Nat) : powerOfTwo exponent = 2 ^ exponent := by
  simp [powerOfTwo]

/-! ## Reduction -/

theorem periodicNumer_eq (numer denom : Int) :
    ∃ turns : Int, periodicNumer numer denom = numer - turns * (2 * denom) := by
  have division := Int.mul_ediv_add_emod numer (2 * denom)
  rw [periodicNumer]
  split
  · exact ⟨numer / (2 * denom), by linarith⟩
  split
  · exact ⟨numer / (2 * denom) + 1, by linarith⟩
  · exact ⟨0, by ring⟩

theorem value_of_normalized {angle reduced : Angle} (computed : angle.normalized = .ok reduced) :
    ∃ turns : Int, reduced.value = angle.value - 2 * turns := by
  rcases periodicNumer_eq angle.numer angle.denom with ⟨turns, numerEq⟩
  have nonzero := angle.denom_cast_ne_zero
  refine ⟨turns, ?_⟩
  rw [value_of_make angle.denom_ne_zero computed, numerEq, value_eq_div]
  push_cast
  field_simp

private theorem numer_of_make {numer denom : Int} {angle : Angle} (nonnegative : 0 ≤ numer)
    (positive : 0 < denom) (made : make numer denom = .ok angle) :
    0 ≤ angle.numer ∧ angle.numer ≤ numer := by
  rw [make_eq positive.ne', Rat.num_divInt, Int.sign_eq_one_of_pos positive, one_mul] at made
  rw [(ofWords_eq_ok made).1]
  exact ⟨Int.ediv_nonneg nonnegative (Int.natCast_nonneg _), Int.ediv_le_self _ nonnegative⟩

private theorem fits_ediv {value : Int} (fits : Word.Fits64 value) {divisor : Int}
    (positive : 0 < divisor) : Word.Fits64 (value / divisor) := by
  rcases le_or_gt 0 value with nonnegative | negative
  · have lower := Int.ediv_nonneg nonnegative positive.le
    have upper := Int.ediv_le_self divisor nonnegative
    have limit : Word.limit64 = 9223372036854775808 := rfl
    exact ⟨by omega, lt_of_le_of_lt upper fits.2⟩
  · have upper := Int.ediv_neg_of_neg_of_pos negative positive
    have lower : value ≤ value / divisor :=
      Int.le_ediv_of_mul_le positive (by nlinarith)
    have limit : Word.limit64 = 9223372036854775808 := rfl
    exact ⟨le_trans fits.1 lower, by omega⟩

/-- Words with a positive denominator can always be brought to lowest terms. -/
theorem exists_make {numer denom : Int} (numerFits : Word.Fits64 numer)
    (denomFits : Word.Fits64 denom) (positive : 0 < denom) :
    ∃ angle, make numer denom = .ok angle := by
  rw [make]
  split
  · exact ⟨zero, rfl⟩
  split
  · exact ⟨whole, rfl⟩
  · have divisorPositive : 0 < (numer.gcd denom : ℤ) :=
      Int.natCast_pos.mpr (Int.gcd_pos_of_ne_zero_right numer positive.ne')
    have reducedPositive : 0 < denom / (numer.gcd denom : ℤ) :=
      Int.ediv_pos_of_pos_of_dvd positive divisorPositive.le (Int.gcd_dvd_right numer denom)
    rw [if_neg reducedPositive.not_gt, ofWords_of_fits (fits_ediv numerFits divisorPositive)
      (fits_ediv denomFits divisorPositive) reducedPositive.ne']
    exact ⟨_, rfl⟩

theorem exists_normalized {angle : Angle} (positive : 0 < angle.denom) :
    ∃ reduced, angle.normalized = .ok reduced := by
  have fits : Word.Fits64 (periodicNumer angle.numer angle.denom) := by
    rw [periodicNumer]
    split
    · assumption
    split
    · assumption
    · exact angle.numer_fits
  exact exists_make fits angle.denom_fits positive

/-- The representative in `[0, 2)` fits when the denominator is small enough. -/
theorem normalized_of_small {angle : Angle} (positive : 0 < angle.denom)
    (small : 2 * angle.denom ≤ Word.limit64) :
    angle.normalized = make (angle.numer % (2 * angle.denom)) angle.denom := by
  have lower := Int.emod_nonneg angle.numer (show 2 * angle.denom ≠ 0 by omega)
  have upper := Int.emod_lt_of_pos angle.numer (show 0 < 2 * angle.denom by omega)
  have fits : Word.Fits64 (angle.numer % (2 * angle.denom)) := by
    have limit : Word.limit64 = 9223372036854775808 := rfl
    exact ⟨by omega, by omega⟩
  rw [normalized, periodicNumer]
  simp only [if_pos fits]

/-- A power of two that fits is at most half of the limit. -/
theorem small_of_dyadic {angle : Angle} {exponent : Nat} (dyadic : angle.denom = 2 ^ exponent) :
    2 * angle.denom ≤ Word.limit64 := by
  have bound : (2 : ℤ) ^ exponent < 2 ^ 63 := by
    rw [← dyadic]
    exact angle.denom_fits.2
  have exponentBound : exponent < 63 := (pow_lt_pow_iff_right₀ (by norm_num)).mp bound
  have power : (2 : ℤ) ^ exponent ≤ 2 ^ 62 := pow_le_pow_right₀ (by norm_num) (by omega)
  rw [dyadic, Word.limit64]
  omega

theorem normalized_eq {angle : Angle} {exponent : Nat} (dyadic : angle.denom = 2 ^ exponent) :
    angle.normalized = make (angle.numer % (2 * angle.denom)) angle.denom :=
  normalized_of_small (by rw [dyadic]; positivity) (small_of_dyadic dyadic)

/-- The numerator of a reduced dyadic angle has one bit more than its denominator. -/
theorem numer_of_normalized {angle reduced : Angle} {exponent : Nat}
    (dyadic : angle.denom = 2 ^ exponent) (computed : angle.normalized = .ok reduced) :
    0 ≤ reduced.numer ∧ reduced.numer < 2 ^ (exponent + 1) := by
  have positive : 0 < angle.denom := by rw [dyadic]; positivity
  have lower := Int.emod_nonneg angle.numer (show 2 * angle.denom ≠ 0 by omega)
  have upper := Int.emod_lt_of_pos angle.numer (show 0 < 2 * angle.denom by omega)
  rw [normalized_eq dyadic] at computed
  rcases numer_of_make lower positive computed with ⟨nonnegative, bounded⟩
  refine ⟨nonnegative, lt_of_le_of_lt bounded ?_⟩
  rw [pow_succ', ← dyadic]
  exact upper

/-- A reduced dyadic angle is a power of one half times an integer, and it is less than two. -/
theorem denom_of_normalized {angle reduced : Angle} {exponent : Nat}
    (dyadic : angle.denom = 2 ^ exponent) (computed : angle.normalized = .ok reduced) :
    ∃ order ≤ exponent, reduced.denom = 2 ^ order ∧ reduced.numer < 2 ^ (order + 1) := by
  have positive : 0 < angle.denom := by rw [dyadic]; positivity
  have upper := Int.emod_lt_of_pos angle.numer (show 0 < 2 * angle.denom by omega)
  rw [normalized_eq dyadic] at computed
  have reducedPositive := (lowest_of_make angle.denom_ne_zero computed).denom_pos
  have divides := denom_dvd_of_make angle.denom_ne_zero computed
  have power : ∃ order ≤ exponent, reduced.denom.natAbs = 2 ^ order := by
    apply (Nat.dvd_prime_pow Nat.prime_two).mp
    rw [dyadic] at divides
    exact_mod_cast Int.natAbs_dvd_natAbs.mpr divides
  rcases power with ⟨order, low, isPower⟩
  have denomEq : reduced.denom = 2 ^ order := by
    rw [← Int.natAbs_of_nonneg reducedPositive.le, isPower]
    norm_num
  refine ⟨order, low, denomEq, ?_⟩
  have below : reduced.value < 2 := by
    rw [value_of_make angle.denom_ne_zero computed, div_lt_iff₀ (Int.cast_pos.mpr positive)]
    exact_mod_cast upper
  rw [value_eq_div, div_lt_iff₀ (Int.cast_pos.mpr reducedPositive), denomEq] at below
  rw [pow_succ']
  exact_mod_cast below

/-! ## Bits -/

/-- The positions of the bits that are set in a numerator, largest first. -/
def setBits (numer : Int) (count : Nat) : List Nat :=
  (List.range count).reverse.filter fun bit => numer / powerOfTwo bit % 2 = 1

theorem setBits_succ (numer : Int) (count : Nat) :
    setBits numer (count + 1) =
      if numer / 2 ^ count % 2 = 1 then count :: setBits numer count else setBits numer count := by
  rw [setBits, List.range_succ, List.reverse_append, List.reverse_singleton,
    List.singleton_append, List.filter_cons, powerOfTwo_eq]
  simp only [decide_eq_true_eq]
  rfl

theorem lt_of_mem_setBits {numer : Int} {count bit : Nat} (member : bit ∈ setBits numer count) :
    bit < count :=
  List.mem_range.mp (List.mem_reverse.mp (List.mem_of_mem_filter member))

private theorem emod_double (numer power : Int) (positive : 0 < power) :
    numer % (power * 2) = power * (numer / power % 2) + numer % power := by
  have outer := Int.mul_ediv_add_emod numer power
  have inner := Int.mul_ediv_add_emod (numer / power) 2
  have lower := Int.emod_nonneg numer positive.ne'
  have upper := Int.emod_lt_of_pos numer positive
  have expanded : numer = power * (numer / power % 2) + numer % power +
      power * 2 * (numer / power / 2) := by linear_combination -outer - power * inner
  generalize numer / power / 2 = quotient at expanded
  generalize remainderEq : power * (numer / power % 2) + numer % power = remainder at expanded
  rw [expanded, Int.add_mul_emod_self_left]
  rcases Int.emod_two_eq_zero_or_one (numer / power) with even | odd
  · rw [even] at remainderEq
    exact Int.emod_eq_of_lt (by linarith) (by linarith)
  · rw [odd] at remainderEq
    exact Int.emod_eq_of_lt (by linarith) (by linarith)

theorem sum_setBits (numer : Int) (count : Nat) :
    ((setBits numer count).map powerOfTwo).sum = numer % 2 ^ count := by
  induction count with
  | zero =>
      rw [pow_zero, Int.emod_one]
      rfl
  | succ count induction =>
      rw [setBits_succ, pow_succ, emod_double _ _ (by positivity), ← induction]
      rcases Int.emod_two_eq_zero_or_one (numer / 2 ^ count) with even | odd
      · simp [even]
      · simp [powerOfTwo_eq, odd]

/-- Bits above the numerator are not set. -/
private theorem setBits_add {numer : Int} {count : Nat} (nonnegative : 0 ≤ numer)
    (bounded : numer < 2 ^ count) (more : Nat) :
    setBits numer (count + more) = setBits numer count := by
  induction more with
  | zero => rfl
  | succ more induction =>
      have above : numer < 2 ^ (count + more) :=
        lt_of_lt_of_le bounded (pow_le_pow_right₀ (by norm_num) (Nat.le_add_right _ _))
      rw [← Nat.add_assoc, setBits_succ, Int.ediv_eq_zero_of_lt nonnegative above]
      exact induction

private theorem sum_values {denom : Int} (nonzero : denom ≠ 0) {bits : List Nat}
    {terms : List Angle}
    (made : List.Forall₂ (fun bit term => make (powerOfTwo bit) denom = .ok term) bits terms) :
    (terms.map value).sum = ((bits.map powerOfTwo).sum : ℤ) / denom := by
  induction made with
  | nil => simp
  | cons head _ induction =>
      rw [List.map_cons, List.sum_cons, induction, value_of_make nonzero head, List.map_cons,
        List.sum_cons, Int.cast_add, add_div]

/-- Leaving out terms of value one changes the sum by an integer. -/
private theorem sum_filter (terms : List Angle) :
    ∃ left : Int, (terms.map value).sum =
      ((terms.filter fun term => !decide (Same term whole)).map value).sum + left := by
  induction terms with
  | nil => exact ⟨0, by simp⟩
  | cons term rest induction =>
      rcases induction with ⟨left, restSum⟩
      by_cases same : Same term whole
      · have one : term.value = 1 := same.trans value_whole
        refine ⟨left + 1, ?_⟩
        rw [List.filter_cons_of_neg (by simp [same]), List.map_cons, List.sum_cons, restSum, one]
        push_cast
        ring
      · refine ⟨left, ?_⟩
        rw [List.filter_cons_of_pos (by simp [same]), List.map_cons, List.map_cons, List.sum_cons,
          List.sum_cons, restSum]
        ring

private theorem sum_of_binaryTerms {numer denom : Int} {exponent : Nat} {terms : List Angle}
    (nonzero : denom ≠ 0) (nonnegative : 0 ≤ numer) (bounded : numer < 2 ^ (exponent + 1))
    (computed : binaryTerms numer denom exponent = .ok terms) :
    ∃ left : Int, (numer : ℚ) / denom = (terms.map value).sum + left := by
  rw [binaryTerms, bind_eq_ok] at computed
  rcases computed with ⟨made, madeEq, termsEq⟩
  cases termsEq
  rcases sum_filter made with ⟨left, filtered⟩
  refine ⟨left, ?_⟩
  have total := sum_setBits numer (exponent + 1)
  rw [Int.emod_eq_of_lt nonnegative bounded] at total
  rw [← filtered, sum_values nonzero (mapM_eq_ok.mp madeEq)]
  exact congrArg (fun sum : ℤ => (sum : ℚ) / denom) total.symm

theorem denom_of_dyadicExponent? {angle : Angle} {exponent : Nat}
    (found : angle.dyadicExponent? = some exponent) : angle.denom = 2 ^ exponent := by
  rw [dyadicExponent?] at found
  split at found
  · next isPower =>
      rw [← Option.some.inj found, ← powerOfTwo_eq]
      exact isPower
  · cases found

/-- Angles with a positive denominator are split without a fault. -/
theorem exists_dyadicTerms {angle : Angle} (positive : 0 < angle.denom) :
    ∃ terms, angle.dyadicTerms = .ok terms := by
  rw [dyadicTerms]
  split
  · exact ⟨none, rfl⟩
  · next exponent found =>
      have dyadic := denom_of_dyadicExponent? found
      rcases exists_normalized positive with ⟨reduced, reducedEq⟩
      have reducedPositive := (lowest_of_make angle.denom_ne_zero reducedEq).denom_pos
      have each : ∀ bit ∈ (List.range (exponent + 1)).reverse.filter fun bit =>
          reduced.numer / powerOfTwo bit % 2 = 1,
          ∃ term, make (powerOfTwo bit) reduced.denom = .ok term := by
        intro bit member
        have low : bit ≤ exponent := by
          have listed := (List.mem_filter.mp member).1
          rw [List.mem_reverse, List.mem_range] at listed
          omega
        have power : powerOfTwo bit ≤ angle.denom := by
          rw [dyadic, powerOfTwo_eq]
          exact pow_le_pow_right₀ (by norm_num) low
        have powerPositive : 0 < powerOfTwo bit := by
          rw [powerOfTwo_eq]
          positivity
        have fits : Word.Fits64 (powerOfTwo bit) := by
          have limit : Word.limit64 = 9223372036854775808 := rfl
          exact ⟨by omega, lt_of_le_of_lt power angle.denom_fits.2⟩
        exact exists_make fits reduced.denom_fits reducedPositive
      rcases exists_mapM_of_forall each with ⟨made, madeEq⟩
      rw [reducedEq, ok_bind, binaryTerms, madeEq]
      exact ⟨_, rfl⟩

/-- The terms of a dyadic angle differ from it by an integer. -/
theorem sum_of_dyadicTerms {angle : Angle} {terms : List Angle}
    (computed : angle.dyadicTerms = .ok (some terms)) :
    ∃ left : Int, angle.value = (terms.map value).sum + left := by
  rw [dyadicTerms] at computed
  split at computed
  · cases computed
  · next exponent found =>
      rw [bind_eq_ok] at computed
      rcases computed with ⟨reduced, reducedEq, computed⟩
      rw [bind_eq_ok] at computed
      rcases computed with ⟨binary, binaryEq, termsEq⟩
      cases termsEq
      rcases numer_of_normalized (denom_of_dyadicExponent? found) reducedEq with
        ⟨nonnegative, bounded⟩
      rcases sum_of_binaryTerms reduced.denom_ne_zero nonnegative bounded binaryEq with
        ⟨left, sum⟩
      rcases value_of_normalized reducedEq with ⟨turns, reducedValue⟩
      refine ⟨left + 2 * turns, ?_⟩
      rw [← value_eq_div, reducedValue] at sum
      push_cast
      linarith

/-! ## Terms -/

private theorem make_powerOfTwo {bit order : Nat} (smaller : bit < order) :
    make (powerOfTwo bit) (2 ^ order) = ofWords 1 (2 ^ (order - bit)) := by
  have positive : (0 : ℤ) < 2 ^ bit := by positivity
  have different : (2 : ℤ) ^ bit ≠ 2 ^ order :=
    (pow_lt_pow_right₀ (by norm_num) smaller).ne
  have split : (2 : ℤ) ^ order = 2 ^ (order - bit) * 2 ^ bit := by
    rw [← pow_add, Nat.sub_add_cancel smaller.le]
  have divisor : (((2 : ℤ) ^ bit).gcd (2 ^ order) : ℤ) = 2 ^ bit := by
    rw [Int.gcd_eq_natAbs_left (pow_dvd_pow 2 smaller.le), Int.natAbs_of_nonneg positive.le]
  have quotient : (2 : ℤ) ^ order / 2 ^ bit = 2 ^ (order - bit) := by
    rw [split, Int.mul_ediv_cancel _ positive.ne']
  have quotientPositive : ¬ (2 : ℤ) ^ (order - bit) < 0 := not_lt.mpr (by positivity)
  rw [make, powerOfTwo_eq, if_neg positive.ne', if_neg different]
  simp only [divisor, quotient, Int.ediv_self positive.ne', if_neg quotientPositive]

/-- A term that stands for one bit of an angle with `order` bits behind the point. -/
def StandsFor (order bit : Nat) (term : Angle) : Prop :=
  term.numer = 1 ∧ term.denom = 2 ^ (order - bit)

private theorem forall₂_lowTerms {order : Nat} {bits : List Nat} {made : List Angle}
    (low : ∀ bit ∈ bits, bit < order)
    (computed : List.Forall₂ (fun bit term => make (powerOfTwo bit) (2 ^ order) = .ok term)
      bits made) :
    List.Forall₂ (StandsFor order) bits (made.filter fun term => !decide (Same term whole)) := by
  induction computed with
  | nil => exact .nil
  | @cons bit term bits made head _ induction =>
      rw [List.forall_mem_cons] at low
      rw [make_powerOfTwo low.1] at head
      have fields := ofWords_eq_ok head
      have proper : ¬ Same term whole := by
        rw [Same, value_eq_div, fields.1, fields.2, value_whole]
        have large : (2 : ℚ) ^ 1 ≤ 2 ^ (order - bit) :=
          pow_le_pow_right₀ (by norm_num) (by omega)
        push_cast
        rw [div_eq_one_iff_eq (by positivity)]
        linarith
      rw [List.filter_cons_of_pos (by simp [proper])]
      exact .cons fields (induction low.2)

/-- The term for the highest bit is a half turn and is left out. -/
private theorem forall₂_properTerms {numer : Int} {order : Nat} {made : List Angle}
    (computed : List.Forall₂ (fun bit term => make (powerOfTwo bit) (2 ^ order) = .ok term)
      (setBits numer (order + 1)) made) :
    List.Forall₂ (StandsFor order) (setBits numer order)
      (made.filter fun term => !decide (Same term whole)) := by
  have low : ∀ bit ∈ setBits numer order, bit < order := fun _ => lt_of_mem_setBits
  rw [setBits_succ] at computed
  split at computed
  · cases computed with
    | cons highest rest =>
        rw [make, powerOfTwo_eq, if_neg (by positivity), if_pos rfl] at highest
        cases highest
        rw [List.filter_cons_of_neg (by simp [Same])]
        exact forall₂_lowTerms low rest
  · exact forall₂_lowTerms low computed

/-- The terms of a dyadic angle stand for the bits of its reduced numerator. -/
theorem forall₂_dyadicTerms {angle : Angle} {terms : List Angle}
    (computed : angle.dyadicTerms = .ok (some terms)) :
    ∃ (reduced : Angle) (order : Nat), angle.normalized = .ok reduced ∧
      reduced.denom = 2 ^ order ∧
      List.Forall₂ (StandsFor order) (setBits reduced.numer order) terms := by
  rw [dyadicTerms] at computed
  split at computed
  · cases computed
  · next exponent found =>
      have dyadic := denom_of_dyadicExponent? found
      rcases bind_eq_ok.mp computed with ⟨reduced, reducedEq, computed⟩
      rcases bind_eq_ok.mp computed with ⟨binary, binaryEq, termsEq⟩
      cases termsEq
      rcases bind_eq_ok.mp binaryEq with ⟨made, madeEq, filtered⟩
      cases filtered
      rcases denom_of_normalized dyadic reducedEq with ⟨order, low, denomEq, bounded⟩
      have nonnegative := (numer_of_normalized dyadic reducedEq).1
      -- The bits are counted by the stored denominator, which reduction may have made smaller.
      have bits : setBits reduced.numer (exponent + 1) = setBits reduced.numer (order + 1) := by
        rw [← setBits_add nonnegative bounded (exponent - order)]
        congr 1
        omega
      have each := mapM_eq_ok.mp madeEq
      rw [← setBits, bits, denomEq] at each
      exact ⟨reduced, order, reducedEq, denomEq, forall₂_properTerms each⟩

/-- A term of a dyadic angle is a proper power of one half. -/
theorem fields_of_mem_dyadicTerms {angle term : Angle} {terms : List Angle}
    (computed : angle.dyadicTerms = .ok (some terms)) (member : term ∈ terms) :
    term.numer = 1 ∧ ∃ order, term.denom = 2 ^ (order + 1) := by
  rcases forall₂_dyadicTerms computed with ⟨reduced, order, _, _, each⟩
  rcases exists_of_mem_right each member with ⟨bit, isSet, numer, denom⟩
  have low := lt_of_mem_setBits isSet
  refine ⟨numer, order - bit - 1, ?_⟩
  rw [denom, Nat.sub_add_cancel (by omega)]

theorem regular_of_mem_dyadicTerms {angle term : Angle} {terms : List Angle}
    (computed : angle.dyadicTerms = .ok (some terms)) (member : term ∈ terms) : term.Regular := by
  rcases fields_of_mem_dyadicTerms computed member with ⟨numer, order, denom⟩
  exact ⟨by rw [denom]; positivity, by rw [numer]; decide⟩

/-- Terms that are coarse enough are basic. -/
theorem isBasic_of_mem_dyadicTerms {angle term : Angle} {terms : List Angle}
    (computed : angle.dyadicTerms = .ok (some terms)) (member : term ∈ terms)
    (coarse : term.denom ≤ 8) : term.isBasic = .ok true := by
  rcases fields_of_mem_dyadicTerms computed member with ⟨numer, order, denom⟩
  have few : order < 3 := by
    rw [denom, show (8 : ℤ) = 2 ^ 3 by norm_num] at coarse
    have small := (pow_le_pow_iff_right₀ (by norm_num : (1 : ℤ) < 2)).mp coarse
    omega
  have value : term.value = 1 / 2 ^ (order + 1) := by
    rw [value_eq_div, numer, denom]
    push_cast
    rfl
  refine isBasic_eq_ok_true.mpr ⟨regular_of_mem_dyadicTerms computed member, ?_⟩
  rw [IsBasic, value]
  match order, few with
  | 0, _ => exact .inl (by norm_num)
  | 1, _ => exact .inr (.inl (by norm_num))
  | 2, _ => exact .inr (.inr (by norm_num))

end LatticeSurgery.Angle
