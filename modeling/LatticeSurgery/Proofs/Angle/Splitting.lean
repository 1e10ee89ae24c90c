import LatticeSurgery.Proofs.Angle.Dyadic
import Mathlib.Tactic.IntervalCases

namespace LatticeSurgery.Angle

/-! # Angles that split

The terms of a dyadic angle are as coarse as the angle itself: when the angle is a multiple of a
power of one half, so are its terms, and there are no more of them than the exponent says. -/

variable {angle : Angle}

/-- The stored denominator is a power of two. -/
def IsDyadic (angle : Angle) : Prop := ∃ exponent : Nat, angle.denom = 2 ^ exponent

theorem isSome_dyadicExponent?_iff : angle.dyadicExponent?.isSome = true ↔ angle.IsDyadic := by
  constructor
  · intro found
    cases exponentEq : angle.dyadicExponent? with
    | none =>
        rw [exponentEq] at found
        cases found
    | some exponent => exact ⟨exponent, denom_of_dyadicExponent? exponentEq⟩
  · intro dyadic
    cases dyadic with
    | intro exponent isPower =>
        have natural : angle.denom.toNat = 2 ^ exponent := by
          rw [isPower]
          exact Int.toNat_natCast (2 ^ exponent)
        rw [dyadicExponent?, natural, Nat.log2_two_pow, powerOfTwo_eq, if_pos isPower]
        rfl

instance (angle : Angle) : Decidable angle.IsDyadic :=
  decidable_of_iff _ isSome_dyadicExponent?_iff

theorem IsDyadic.denom_pos (dyadic : angle.IsDyadic) : 0 < angle.denom := by
  cases dyadic with
  | intro exponent isPower =>
      rw [isPower]
      positivity

theorem IsDyadic.small (dyadic : angle.IsDyadic) : 2 * angle.denom ≤ Word.limit64 := by
  cases dyadic with
  | intro exponent isPower => exact small_of_dyadic isPower

theorem dyadicTerms_of_not_isDyadic (other : ¬ angle.IsDyadic) : angle.dyadicTerms = .ok none := by
  rw [← isSome_dyadicExponent?_iff, Bool.not_eq_true, Option.isSome_eq_false_iff,
    Option.isNone_iff_eq_none] at other
  rw [dyadicTerms, other]

theorem isDyadic_of_dyadicTerms {terms : List Angle}
    (computed : angle.dyadicTerms = .ok (some terms)) : angle.IsDyadic := by
  by_contra other
  rw [dyadicTerms_of_not_isDyadic other] at computed
  cases computed

theorem IsDyadic.exists_dyadicTerms (dyadic : angle.IsDyadic) :
    ∃ terms, angle.dyadicTerms = .ok (some terms) := by
  cases Angle.exists_dyadicTerms dyadic.denom_pos with
  | intro found computed =>
      cases found with
      | some terms => exact ⟨terms, computed⟩
      | none =>
          rw [dyadicTerms] at computed
          have isSome := isSome_dyadicExponent?_iff.mpr dyadic
          split at computed
          · next missing =>
              rw [missing] at isSome
              cases isSome
          · rcases Result.bind_eq_ok.mp computed with ⟨reduced, _, computed⟩
            rcases Result.bind_eq_ok.mp computed with ⟨terms, _, computed⟩
            cases computed

/-! ## Precision -/

/-- The angle is a multiple of one half to the given power. -/
def MultipleOf (angle : Angle) (precision : Nat) : Prop :=
  ∃ count : ℤ, 2 ^ precision * angle.value = count

theorem multipleOf_of_denom {exponent precision : Nat} (isPower : angle.denom = 2 ^ exponent)
    (coarse : exponent ≤ precision) : angle.MultipleOf precision := by
  have split : (2 : ℚ) ^ precision = 2 ^ (precision - exponent) * 2 ^ exponent := by
    rw [← pow_add, Nat.sub_add_cancel coarse]
  refine ⟨2 ^ (precision - exponent) * angle.numer, ?_⟩
  rw [value_eq_div, isPower, split]
  push_cast
  field_simp

theorem Lowest.exponent_le {exponent precision : Nat} (lowest : angle.Lowest)
    (isPower : angle.denom = 2 ^ exponent) (multiple : angle.MultipleOf precision) :
    exponent ≤ precision := by
  cases multiple with
  | intro count whole =>
      have divides : (2 : ℤ) ^ exponent ∣ 2 ^ precision := by
        rw [← isPower]
        exact lowest.denom_dvd_of_mul_value (by exact_mod_cast whole)
      have bounded := Int.le_of_dvd (by positivity) divides
      exact (pow_le_pow_iff_right₀ (by norm_num)).mp bounded

private theorem MultipleOf.normalized {reduced : Angle} {precision : Nat}
    (multiple : angle.MultipleOf precision) (computed : angle.normalized = .ok reduced) :
    reduced.MultipleOf precision := by
  rcases multiple with ⟨count, whole⟩
  rcases value_of_normalized computed with ⟨turns, reducedValue⟩
  refine ⟨count - 2 ^ precision * (2 * turns), ?_⟩
  rw [reducedValue, mul_sub, whole]
  push_cast
  rfl

private theorem multiple_sum {precision : Nat} {terms : List Angle}
    (each : ∀ term ∈ terms, term.MultipleOf precision) :
    ∃ count : ℤ, 2 ^ precision * (terms.map value).sum = count := by
  induction terms with
  | nil => exact ⟨0, by simp⟩
  | cons term rest induction =>
      rw [List.forall_mem_cons] at each
      rcases each.1 with ⟨first, firstEq⟩
      rcases induction each.2 with ⟨others, othersEq⟩
      refine ⟨first + others, ?_⟩
      rw [List.map_cons, List.sum_cons, mul_add, firstEq, othersEq, Int.cast_add]

/-- The terms of a dyadic angle are as coarse as the angle. -/
theorem coarse_dyadicTerms_iff {terms : List Angle} {precision : Nat}
    (computed : angle.dyadicTerms = .ok (some terms)) :
    (∀ term ∈ terms, term.denom ≤ 2 ^ precision) ↔ angle.MultipleOf precision := by
  rcases forall₂_dyadicTerms computed with ⟨reduced, order, reducedEq, isPower, each⟩
  constructor
  · intro coarse
    have multiples : ∀ term ∈ terms, term.MultipleOf precision := by
      intro term member
      rcases Result.exists_of_mem_right each member with ⟨bit, _, _, denomEq⟩
      have bounded := coarse term member
      rw [denomEq] at bounded
      exact multipleOf_of_denom denomEq ((pow_le_pow_iff_right₀ (by norm_num)).mp bounded)
    rcases multiple_sum multiples with ⟨count, countEq⟩
    rcases sum_of_dyadicTerms computed with ⟨left, sum⟩
    refine ⟨count + 2 ^ precision * left, ?_⟩
    rw [sum, mul_add, countEq]
    push_cast
    rfl
  · intro multiple term member
    have lowest := lowest_of_make angle.denom_ne_zero reducedEq
    have bounded := lowest.exponent_le isPower (multiple.normalized reducedEq)
    rcases Result.exists_of_mem_right each member with ⟨bit, _, _, denomEq⟩
    rw [denomEq]
    exact pow_le_pow_right₀ (by norm_num) (by omega)

theorem length_setBits_le (numer : Int) (count : Nat) : (setBits numer count).length ≤ count := by
  have filtered := List.length_filter_le (fun bit => decide (numer / powerOfTwo bit % 2 = 1))
    (List.range count).reverse
  rwa [List.length_reverse, List.length_range] at filtered

theorem length_dyadicTerms_le {terms : List Angle} {precision : Nat}
    (computed : angle.dyadicTerms = .ok (some terms)) (multiple : angle.MultipleOf precision) :
    terms.length ≤ precision := by
  rcases forall₂_dyadicTerms computed with ⟨reduced, order, reducedEq, isPower, each⟩
  have lowest := lowest_of_make angle.denom_ne_zero reducedEq
  calc terms.length = (setBits reduced.numer order).length := each.length_eq.symm
    _ ≤ order := length_setBits_le _ _
    _ ≤ precision := lowest.exponent_le isPower (multiple.normalized reducedEq)

/-! ## Eighths -/

/-- Basic rotations alone make up the angle, except for half turns. -/
def Splits (angle : Angle) : Prop := angle.IsBasic ∨ angle.IsDyadic ∧ angle.MultipleOf 3

theorem IsBasic.multipleOf (basic : angle.IsBasic) : angle.MultipleOf 3 := by
  have sized (amount : ℚ) (count : ℤ) (countEq : 2 ^ 3 * amount = count)
      (size : |angle.value| = amount) : angle.MultipleOf 3 := by
    cases eq_or_eq_neg_of_abs_eq size with
    | inl positive => exact ⟨count, by rw [positive, countEq]⟩
    | inr negative => exact ⟨-count, by rw [negative, mul_neg, countEq, Int.cast_neg]⟩
  rcases basic with half | quarter | eighth
  · exact sized _ 4 (by norm_num) half
  · exact sized _ 2 (by norm_num) quarter
  · exact sized _ 1 (by norm_num) eighth

/-- In lowest terms the denominator alone decides. -/
theorem Lowest.splits_iff (lowest : angle.Lowest) :
    angle.Splits ↔ angle.denom = 1 ∨ angle.denom = 2 ∨ angle.denom = 4 ∨ angle.denom = 8 := by
  constructor
  · intro splits
    rcases splits.elim IsBasic.multipleOf And.right with ⟨count, whole⟩
    have divides : angle.denom ∣ 8 := lowest.denom_dvd_of_mul_value (by norm_num at *; exact whole)
    have positive := lowest.denom_pos
    have bounded := Int.le_of_dvd (by norm_num) divides
    generalize angle.denom = denom at *
    interval_cases denom <;> omega
  · have dyadic (exponent : Nat) (coarse : exponent ≤ 3) (isPower : angle.denom = 2 ^ exponent) :
        angle.Splits := .inr ⟨⟨exponent, isPower⟩, multipleOf_of_denom isPower coarse⟩
    rintro (isPower | isPower | isPower | isPower)
    · exact dyadic 0 (by norm_num) isPower
    · exact dyadic 1 (by norm_num) isPower
    · exact dyadic 2 (by norm_num) isPower
    · exact dyadic 3 (by norm_num) isPower

end LatticeSurgery.Angle
