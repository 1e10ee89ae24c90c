import LatticeSurgery.Proofs.Angle.Splitting

namespace LatticeSurgery.Angle

open Result (Agree bind_eq_ok ok_bind pure_eq_ok)

/-! # Representations

Comparison looks at values, while signs, opposites and dyadic terms look at stored pairs. For
regular pairs the value decides about the sign and the magnitude. It decides about the dyadic terms
too, unless only one of two pairs with the same value has a power of two as its denominator. -/

variable {left right : Angle}

/-! ## Comparison -/

theorem same_iff : left.Same right ↔ left.numer * right.denom = right.numer * left.denom :=
  Rat.divInt_eq_divInt_iff left.denom_ne_zero right.denom_ne_zero

theorem isEq_valueOrder (left right : Angle) :
    (valueOrder left right).isEq = decide (left.Same right) := by
  by_cases same : left.value = right.value
  · simp [valueOrder, Same, same]
  · by_cases less : left.value < right.value <;> simp [valueOrder, Same, same, less]

/-- Comparison finds the angles equal. -/
def Compares (left right : Angle) : Prop := left.isSame right = .ok true

instance (left right : Angle) : Decidable (left.Compares right) :=
  inferInstanceAs (Decidable (_ = _))

theorem Compares.refl (angle : Angle) : angle.Compares angle := by
  rw [Compares, isSame, order, if_pos rfl, ok_bind, isEq_valueOrder]
  simp [Same]

private theorem isEq_denomOrder {numer leftDenom rightDenom : Int} :
    (denomOrder numer leftDenom rightDenom).isEq = decide (numer = 0) := by
  rw [denomOrder]
  split
  · next isZero => simp [isZero]
  · next nonzero => split <;> simp [nonzero]

theorem Compares.same (compared : left.Compares right) : left.Same right := by
  rcases bind_eq_ok.mp compared with ⟨found, ordered, isEq⟩
  rw [pure_eq_ok, Except.ok.injEq] at isEq
  have byValue (valueEq : valueOrder left right = found) : left.Same right := by
    rw [← valueEq, isEq_valueOrder, decide_eq_true_eq] at isEq
    exact isEq
  rw [order] at ordered
  split at ordered
  · exact byValue (Except.ok.inj ordered)
  split at ordered
  · next sameNumer =>
      rw [← Except.ok.inj ordered, isEq_denomOrder, decide_eq_true_eq] at isEq
      rw [same_iff, ← sameNumer, isEq, zero_mul, zero_mul]
  split at ordered
  · exact byValue (Except.ok.inj ordered)
  · cases ordered

private theorem hasQuotient_of_pos {numer denom : Int} (positive : 0 < numer ∨ 0 < denom) :
    hasQuotient numer denom = true := by
  have limit : Word.limit64 = 9223372036854775808 := rfl
  rw [hasQuotient, Bool.or_eq_true, decide_eq_true_eq, decide_eq_true_eq]
  omega

/-- With positive denominators the words always suffice for a comparison. -/
theorem compares_of_same (leftPositive : 0 < left.denom) (rightPositive : 0 < right.denom)
    (same : left.Same right) : left.Compares right := by
  have byValue : (valueOrder left right).isEq = true := by
    rw [isEq_valueOrder, decide_eq_true same]
  rw [Compares, isSame, order]
  split
  · rw [ok_bind, byValue, pure_eq_ok]
  split
  · next sameNumer =>
      have cross := same_iff.mp same
      rw [sameNumer] at cross
      have isZero : left.numer = 0 := by
        rw [sameNumer]
        by_contra nonzero
        exact ‹left.denom ≠ right.denom› (mul_left_cancel₀ nonzero cross).symm
      rw [ok_bind, isEq_denomOrder, isZero, pure_eq_ok]
      rfl
  · have fits : (quotientsFit left right && remaindersFit left right) = true := by
      simp [quotientsFit, remaindersFit, hasQuotient_of_pos, leftPositive, rightPositive]
    rw [if_pos fits, ok_bind, byValue, pure_eq_ok]

/-! ## Signs and magnitudes -/

/-- The pairs are the same, or they are regular and have the same value. -/
def Akin (left right : Angle) : Prop :=
  left = right ∨ left.Regular ∧ right.Regular ∧ left.Same right

namespace Akin

theorem refl (angle : Angle) : angle.Akin angle := .inl rfl

theorem compares (akin : left.Akin right) : left.Compares right := by
  cases akin with
  | inl equal =>
      rw [equal]
      exact .refl right
  | inr regular =>
      exact compares_of_same regular.1.denom_pos regular.2.1.denom_pos regular.2.2

theorem hasMagnitude_eq (akin : left.Akin right) (magnitude : Angle) :
    left.hasMagnitude magnitude = right.hasMagnitude magnitude := by
  cases akin with
  | inl equal => rw [equal]
  | inr regular =>
      have sameValue : left.value = right.value := regular.2.2
      rw [regular.1.hasMagnitude_eq, regular.2.1.hasMagnitude_eq, sameValue]

theorem isNegative_eq (akin : left.Akin right) : left.isNegative = right.isNegative := by
  cases akin with
  | inl equal => rw [equal]
  | inr regular =>
      have sameValue : left.value = right.value := regular.2.2
      rw [Bool.eq_iff_iff, regular.1.isNegative_iff, regular.2.1.isNegative_iff, sameValue]

theorem neg (akin : left.Akin right) : Agree Eq Akin left.neg right.neg := by
  cases akin with
  | inl equal =>
      rw [equal]
      cases right.neg with
      | ok negated => exact .ok (.refl negated)
      | error fault => exact .error rfl
  | inr regular =>
      rcases regular.1.exists_neg with ⟨leftNegated, leftEq, leftRegular⟩
      rcases regular.2.1.exists_neg with ⟨rightNegated, rightEq, rightRegular⟩
      have sameValue : left.value = right.value := regular.2.2
      rw [leftEq, rightEq]
      refine .ok (.inr ⟨leftRegular, rightRegular, ?_⟩)
      rw [Same, value_of_neg leftEq, value_of_neg rightEq, sameValue]

end Akin

/-! ## Reduction and dyadic terms -/

/-- The pair reduced modulo 2 is determined by the value, when both denominators are small. -/
theorem normalized_congr (leftPositive : 0 < left.denom) (rightPositive : 0 < right.denom)
    (leftSmall : 2 * left.denom ≤ Word.limit64) (rightSmall : 2 * right.denom ≤ Word.limit64)
    (same : left.Same right) : left.normalized = right.normalized := by
  rw [normalized_of_small leftPositive leftSmall, normalized_of_small rightPositive rightSmall]
  apply make_congr left.denom_ne_zero right.denom_ne_zero
  -- Both remainders are those of one numerator over the product of the denominators.
  calc left.numer % (2 * left.denom) * right.denom
      = right.denom * left.numer % (right.denom * (2 * left.denom)) := by
        rw [Int.mul_emod_mul_of_pos _ _ rightPositive, mul_comm]
    _ = left.denom * right.numer % (left.denom * (2 * right.denom)) := by
        rw [mul_comm right.denom, same_iff.mp same, mul_comm right.numer]
        congr 1
        ring
    _ = right.numer % (2 * right.denom) * left.denom := by
        rw [Int.mul_emod_mul_of_pos _ _ leftPositive, mul_comm]

theorem rightUnique_standsFor (order : Nat) : Relator.RightUnique (StandsFor order) := by
  intro bit first second firstStands secondStands
  exact ext_fields (firstStands.1.trans secondStands.1.symm)
    (firstStands.2.trans secondStands.2.symm)

/-- Dyadic pairs with the same value have the same terms. -/
theorem dyadicTerms_congr (leftDyadic : left.IsDyadic) (rightDyadic : right.IsDyadic)
    (same : left.Same right) : left.dyadicTerms = right.dyadicTerms := by
  rcases leftDyadic.exists_dyadicTerms with ⟨leftTerms, leftEq⟩
  rcases rightDyadic.exists_dyadicTerms with ⟨rightTerms, rightEq⟩
  rcases forall₂_dyadicTerms leftEq with
    ⟨leftReduced, leftOrder, leftNormalized, leftPower, leftEach⟩
  rcases forall₂_dyadicTerms rightEq with
    ⟨rightReduced, rightOrder, rightNormalized, rightPower, rightEach⟩
  have reduced : left.normalized = right.normalized :=
    normalized_congr leftDyadic.denom_pos rightDyadic.denom_pos leftDyadic.small rightDyadic.small
      same
  rw [leftNormalized, rightNormalized, Except.ok.injEq] at reduced
  subst reduced
  have sameOrder : leftOrder = rightOrder :=
    Int.pow_right_injective (by norm_num) (leftPower.symm.trans rightPower)
  subst sameOrder
  rw [leftEq, rightEq, (rightUnique_standsFor leftOrder).forall₂ leftEach rightEach]

/-- The pairs are the same or basic, or their denominators are small and either both are dyadic or
neither is. -/
def SplitsAlike (left right : Angle) : Prop :=
  left = right ∨ left.IsBasic ∨ (left.IsDyadic ↔ right.IsDyadic) ∧
    2 * left.denom ≤ Word.limit64 ∧ 2 * right.denom ≤ Word.limit64

instance (left right : Angle) : Decidable (left.SplitsAlike right) :=
  inferInstanceAs (Decidable (_ ∨ _))

end LatticeSurgery.Angle
