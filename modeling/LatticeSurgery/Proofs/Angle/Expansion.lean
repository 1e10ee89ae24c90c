import LatticeSurgery.Proofs.Angle.Residue
import LatticeSurgery.Proofs.Angle.Splitting

namespace LatticeSurgery.Angle

/-! # Binary expansions

The terms of a dyadic angle are its binary expansion behind the point, so that they add up to its
fractional part. What is left over is the integer part, which is odd for the angles whose class
modulo 2 is in the upper half. -/

variable {angle : Angle} {terms : List Angle}

theorem pairwise_setBits (numer : Int) (count : Nat) : (setBits numer count).Pairwise (· > ·) :=
  (List.pairwise_reverse.mpr List.pairwise_lt_range).filter _

theorem StandsFor.value_eq {order bit : Nat} {term : Angle} (stands : StandsFor order bit term)
    (low : bit ≤ order) : term.value = (powerOfTwo bit : ℚ) / 2 ^ order := by
  have split : (2 : ℚ) ^ order = 2 ^ (order - bit) * 2 ^ bit := by
    rw [← pow_add, Nat.sub_add_cancel low]
  rw [value_eq_div, stands.1, stands.2, powerOfTwo_eq, split]
  push_cast
  field_simp

private theorem sum_standsFor {order : Nat} {bits : List Nat} (low : ∀ bit ∈ bits, bit < order)
    (each : List.Forall₂ (StandsFor order) bits terms) :
    (terms.map value).sum = ((bits.map powerOfTwo).sum : ℤ) / 2 ^ order := by
  induction each with
  | nil => simp
  | cons stands _ induction =>
      rw [List.forall_mem_cons] at low
      rw [List.map_cons, List.sum_cons, stands.value_eq low.1.le, induction low.2, List.map_cons,
        List.sum_cons, Int.cast_add, add_div]

private theorem pairwise_standsFor {order : Nat} {bits : List Nat}
    (low : ∀ bit ∈ bits, bit < order) (falling : bits.Pairwise (· > ·))
    (each : List.Forall₂ (StandsFor order) bits terms) :
    terms.Pairwise fun first second => second.value < first.value := by
  induction each with
  | nil => exact .nil
  | @cons bit term bits terms stands others induction =>
      rw [List.forall_mem_cons] at low
      rw [List.pairwise_cons] at falling
      refine .cons ?_ (induction low.2 falling.2)
      intro second member
      rcases Result.exists_of_mem_right others member with ⟨lower, isSet, secondStands⟩
      have smaller : powerOfTwo lower < powerOfTwo bit := by
        rw [powerOfTwo_eq, powerOfTwo_eq]
        exact pow_lt_pow_right₀ (by norm_num) (falling.1 lower isSet)
      rw [stands.value_eq low.1.le, secondStands.value_eq (low.2 lower isSet).le]
      gcongr

theorem pairwise_dyadicTerms (computed : angle.dyadicTerms = .ok (some terms)) :
    terms.Pairwise fun first second => second.value < first.value := by
  rcases forall₂_dyadicTerms computed with ⟨reduced, order, _, _, each⟩
  exact pairwise_standsFor (fun _ => lt_of_mem_setBits) (pairwise_setBits _ _) each

theorem sum_dyadicTerms (computed : angle.dyadicTerms = .ok (some terms)) :
    (terms.map value).sum = Int.fract angle.value := by
  rcases forall₂_dyadicTerms computed with ⟨reduced, order, reducedEq, denomEq, each⟩
  rcases value_of_normalized reducedEq with ⟨turns, reducedValue⟩
  calc (terms.map value).sum
      = ((reduced.numer % 2 ^ order : ℤ) : ℚ) / 2 ^ order := by
        rw [sum_standsFor (fun _ => lt_of_mem_setBits) each, sum_setBits]
    _ = Int.fract reduced.value := by
        have fractEq : Int.fract ((reduced.numer : ℚ) / (2 ^ order : ℕ)) =
            (reduced.numer % (2 ^ order : ℕ) : ℤ) / (2 ^ order : ℕ) :=
          Int.fract_div_intCast_eq_div_intCast_mod
        rw [value_eq_div, denomEq]
        push_cast at fractEq ⊢
        exact fractEq.symm
    _ = Int.fract angle.value := by
        rw [reducedValue, ← Int.cast_ofNat, ← Int.cast_mul, Int.fract_sub_intCast]

theorem odd_floor_iff (angle : Angle) : Odd ⌊angle.value⌋ ↔ 1 ≤ angle.residue := by
  have halved : ⌊angle.value / 2⌋ = ⌊angle.value⌋ / 2 := by
    exact_mod_cast Int.floor_div_natCast angle.value 2
  have whole := Int.floor_add_fract angle.value
  have nonnegative := Int.fract_nonneg angle.value
  have below := Int.fract_lt_one angle.value
  have residueEq : angle.residue = (⌊angle.value⌋ % 2 : ℤ) + Int.fract angle.value := by
    rw [residue, halved, Int.emod_def]
    push_cast
    linarith
  rw [Int.odd_iff, residueEq]
  rcases Int.emod_two_eq_zero_or_one ⌊angle.value⌋ with even | odd
  · rw [even]
    constructor
    · intro contradiction
      cases contradiction
    · intro large
      push_cast at large
      linarith
  · rw [odd]
    simp

theorem exponent_of_mem_dyadicTerms {term : Angle}
    (computed : angle.dyadicTerms = .ok (some terms)) (member : term ∈ terms) :
    ∃ exponent, 1 ≤ exponent ∧ exponent ≤ angle.denom.toNat.log2 ∧ term.numer = 1 ∧
      term.denom = 2 ^ exponent := by
  rcases isDyadic_of_dyadicTerms computed with ⟨unit, isPower⟩
  rcases fields_of_mem_dyadicTerms computed member with ⟨numerEq, order, denomEq⟩
  have coarse := (coarse_dyadicTerms_iff computed).mpr (multipleOf_of_denom isPower le_rfl)
  have bounded := coarse term member
  rw [denomEq] at bounded
  have natural : angle.denom.toNat = 2 ^ unit := by
    rw [isPower]
    exact Int.toNat_natCast (2 ^ unit)
  refine ⟨order + 1, Nat.le_add_left _ _, ?_, numerEq, denomEq⟩
  rw [natural, Nat.log2_two_pow]
  exact (pow_le_pow_iff_right₀ (by norm_num)).mp bounded

/-- The terms of an angle in lowest terms are distinct powers of one half, no smaller than the unit
of the angle, and they add up to the angle except for an integer. -/
theorem Lowest.dyadicTerms_exact (lowest : angle.Lowest) :
    ∃ found, angle.dyadicTerms = .ok found ∧ (found.isSome ↔ angle.IsDyadic) ∧
      ∀ terms ∈ found,
        (terms.Pairwise fun first second => second.value < first.value) ∧
        (∀ term ∈ terms, ∃ exponent, 1 ≤ exponent ∧ exponent ≤ angle.denom.toNat.log2 ∧
          term.numer = 1 ∧ term.denom = 2 ^ exponent) ∧
        ∃ difference : ℤ, angle.value - (terms.map value).sum = difference ∧
          (Odd difference ↔ 1 ≤ angle.residue) := by
  rcases Angle.exists_dyadicTerms lowest.denom_pos with ⟨found, computed⟩
  refine ⟨found, computed, ?_, ?_⟩
  · constructor
    · intro isSome
      rcases Option.isSome_iff_exists.mp isSome with ⟨terms, rfl⟩
      exact isDyadic_of_dyadicTerms computed
    · intro dyadic
      rcases dyadic.exists_dyadicTerms with ⟨terms, termsEq⟩
      rw [computed, Except.ok.injEq] at termsEq
      rw [termsEq, Option.isSome_some]
  · rintro terms rfl
    refine ⟨pairwise_dyadicTerms computed, fun _ => exponent_of_mem_dyadicTerms computed,
      ⌊angle.value⌋, ?_, angle.odd_floor_iff⟩
    rw [sum_dyadicTerms computed]
    linarith [Int.floor_add_fract angle.value]

/-- The least odd numerator over the largest power of two that fits. -/
def lowestWords : Angle :=
  ⟨-9223372036854775807, 4611686018427387904, by decide, by decide, by decide⟩

theorem dyadicTerms_lowestWords :
    ∃ terms, lowestWords.dyadicTerms = .ok (some terms) ∧
      ∃ difference : ℤ, lowestWords.value - (terms.map value).sum = difference ∧
        Even difference := by
  have lowest : lowestWords.Lowest := by decide
  rcases lowest.dyadicTerms_exact with ⟨found, computed, dyadic, exact⟩
  rcases Option.isSome_iff_exists.mp (dyadic.mpr (by decide)) with ⟨terms, rfl⟩
  rcases (exact terms rfl).2.2 with ⟨difference, differenceEq, parity⟩
  refine ⟨terms, computed, difference, differenceEq, ?_⟩
  rw [← Int.not_odd_iff_even, parity]
  decide +kernel

end LatticeSurgery.Angle
