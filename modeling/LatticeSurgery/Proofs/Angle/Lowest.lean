import LatticeSurgery.Proofs.Angle.Value

namespace LatticeSurgery.Angle

/-! # Lowest terms

A value has one pair in lowest terms. Making an angle from two words brings them to the pair in
lowest terms of their quotient, so it does not matter by which words the quotient was given. -/

/-- The pair is in lowest terms, and its sign is that of the numerator. -/
structure Lowest (angle : Angle) : Prop where
  denom_pos : 0 < angle.denom
  coprime : angle.numer.gcd angle.denom = 1

instance (angle : Angle) : Decidable angle.Lowest :=
  decidable_of_iff (0 < angle.denom ∧ angle.numer.gcd angle.denom = 1)
    ⟨fun fields => ⟨fields.1, fields.2⟩, fun lowest => ⟨lowest.denom_pos, lowest.coprime⟩⟩

/-- Only the quotient of the words matters. -/
theorem make_congr {numer denom other otherDenom : Int} (nonzero : denom ≠ 0)
    (otherNonzero : otherDenom ≠ 0) (same : numer * otherDenom = other * denom) :
    make numer denom = make other otherDenom := by
  rw [make_eq nonzero, make_eq otherNonzero,
    (Rat.divInt_eq_divInt_iff nonzero otherNonzero).mpr same]

theorem lowest_of_make {numer denom : Int} {angle : Angle} (nonzero : denom ≠ 0)
    (made : make numer denom = .ok angle) : angle.Lowest := by
  rw [make_eq nonzero] at made
  have fields := ofWords_eq_ok made
  constructor
  · rw [fields.2]
    exact Int.natCast_pos.mpr (Rat.den_pos _)
  · rw [fields.1, fields.2, Int.gcd, Int.natAbs_natCast]
    exact (Rat.divInt numer denom).reduced

theorem denom_dvd_of_make {numer denom : Int} {angle : Angle} (nonzero : denom ≠ 0)
    (made : make numer denom = .ok angle) : angle.denom ∣ denom := by
  rw [make_eq nonzero] at made
  rw [(ofWords_eq_ok made).2]
  exact Rat.den_dvd numer denom

namespace Lowest

variable {angle other : Angle}

theorem ext (lowest : angle.Lowest) (otherLowest : other.Lowest) (same : angle.Same other) :
    angle = other := by
  rw [Same, value_eq_div, value_eq_div] at same
  have fields := Rat.div_int_inj lowest.denom_pos otherLowest.denom_pos lowest.coprime
    otherLowest.coprime same
  exact ext_fields fields.1 fields.2

/-- A multiple of the value is an integer when it makes up for the denominator. -/
theorem denom_dvd_of_mul_value (lowest : angle.Lowest) {factor count : Int}
    (whole : factor * angle.value = count) : angle.denom ∣ factor := by
  have product : factor * angle.numer = count * angle.denom := by
    have nonzero := angle.denom_cast_ne_zero
    rw [value_eq_div, ← mul_div_assoc, div_eq_iff nonzero] at whole
    exact_mod_cast whole
  apply Int.dvd_of_dvd_mul_left_of_gcd_one (Dvd.intro_left count product.symm)
  rw [Int.gcd_comm]
  exact lowest.coprime

end Lowest

end LatticeSurgery.Angle
