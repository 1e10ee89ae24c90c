import LatticeSurgery.Proofs.Operator.Pauli
import LatticeSurgery.Word

namespace LatticeSurgery

/-! # Products of strings

An operator is a multiple of at most one string, so strings with phases multiply by the laws of
their operators. The phases themselves never leave the four units. -/

namespace Phase

/-- The units that products with a given number of imaginary factors lead to. -/
def units (count : Nat) : List Phase := if count % 2 = 0 then [one, ⟨-1, 0⟩] else [i, negI]

theorem units_mod_two (count : Nat) : units (count % 2) = units count := by
  rw [units, units, Nat.mod_mod]

theorem mul_mem_units {first second : Nat} {left right : Phase} (leftUnit : left ∈ units first)
    (rightUnit : right ∈ units second) : left * right ∈ units (first + second) := by
  have table : ∀ first < 2, ∀ second < 2, ∀ left ∈ units first, ∀ right ∈ units second,
      left * right ∈ units (first + second) := by decide
  rw [← units_mod_two] at leftUnit rightUnit
  have product := table _ (Nat.mod_lt first Nat.two_pos) _ (Nat.mod_lt second Nat.two_pos) left
    leftUnit right rightUnit
  rwa [← units_mod_two, ← Nat.add_mod, units_mod_two] at product

theorem eq_of_mem_units {count : Nat} {phase : Phase} (unit : phase ∈ units count) :
    phase ∈ [one, ⟨-1, 0⟩, i, negI] := by
  have table : ∀ count < 2, ∀ phase ∈ units count, phase ∈ [one, ⟨-1, 0⟩, i, negI] := by decide
  rw [← units_mod_two] at unit
  exact table _ (Nat.mod_lt count Nat.two_pos) phase unit

theorem toComplex_ne_zero {count : Nat} {phase : Phase} (unit : phase ∈ units count) :
    phase.toComplex ≠ 0 := by
  intro vanishes
  have zero : phase = ⟨0, 0⟩ := toComplex_injective (by simpa [toComplex] using vanishes)
  rw [zero] at unit
  exact absurd (eq_of_mem_units unit) (by decide)

/-- The sign `(-1) ^ count`. -/
def sign (count : Nat) : Phase := ⟨(-1) ^ count, 0⟩

@[simp] theorem toComplex_sign (count : Nat) : (sign count).toComplex = (-1) ^ count := by
  simp [sign, toComplex]

/-! The components of two phases are multiplied in pairs. A store that cannot hold one of the
numbers that come up on the way refuses the product. -/

/-- The numbers that come up when two phases are multiplied. -/
def workings (left right : Phase) : List Int :=
  [left.re, left.im, right.re, right.im, left.re * right.re, left.im * right.im,
    left.re * right.im, left.im * right.re, (left * right).re, (left * right).im]

def mulWithin (holds : Int → Bool) (left right : Phase) : Option Phase :=
  if (workings left right).all holds then some (left * right) else none

/-- Three numbers are enough to multiply units. -/
theorem mulWithin_of_mem_units {holds : Int → Bool}
    (small : ∀ number ∈ [-1, 0, 1], holds number = true) {first second : Nat}
    {left right : Phase} (leftUnit : left ∈ units first) (rightUnit : right ∈ units second) :
    mulWithin holds left right = some (left * right) := by
  have table : ∀ left ∈ [one, ⟨-1, 0⟩, i, negI], ∀ right ∈ [one, ⟨-1, 0⟩, i, negI],
      ∀ number ∈ workings left right, number ∈ [-1, 0, 1] := by decide
  rw [mulWithin, if_pos]
  rw [List.all_eq_true]
  intro number member
  exact small number
    (table left (eq_of_mem_units leftUnit) right (eq_of_mem_units rightUnit) number member)

end Phase

theorem Pauli.mul_fst_mem_units (left right : Pauli) :
    (mul left right).1 ∈ Phase.units (if left.commutes right then 0 else 1) := by
  cases left <;> cases right <;> decide

namespace PauliString

/-- The product of two strings, if all numbers that come up in its phases can be held. -/
def mulWithin (holds : Int → Bool) (left right : PauliString) : Option (Phase × PauliString) := do
  let products := left.zipWith Pauli.mul right
  let phase ← products.foldlM (fun phase product => phase.mulWithin holds product.1) Phase.one
  return (phase, products.map Prod.snd)

/-! ## Phases -/

theorem foldl_mem_units {start : Phase} {count : Nat} (unit : start ∈ Phase.units count)
    (pairs : List (Pauli × Pauli)) :
    pairs.foldl (fun phase pair => phase * (Pauli.mul pair.1 pair.2).1) start ∈
      Phase.units (count + pairs.countP fun pair => !pair.1.commutes pair.2) := by
  induction pairs generalizing start count with
  | nil => exact unit
  | cons pair rest induction =>
      have last := induction
        (Phase.mul_mem_units unit (Pauli.mul_fst_mem_units pair.1 pair.2))
      have counts : count + (if pair.1.commutes pair.2 then 0 else 1) +
          (rest.countP fun pair => !pair.1.commutes pair.2) =
            count + (pair :: rest).countP fun pair => !pair.1.commutes pair.2 := by
        rw [List.countP_cons]
        cases pair.1.commutes pair.2 with
        | false => exact Nat.add_right_comm count 1 _
        | true => rfl
      rwa [counts] at last

theorem mul_fst_mem_units (left right : PauliString) :
    (mul left right).1 ∈ Phase.units (anticommutingPositions left right) := by
  have start : Phase.one ∈ Phase.units 0 := by decide
  have folded : (mul left right).1 = (left.zip right).foldl
      (fun phase pair => phase * (Pauli.mul pair.1 pair.2).1) Phase.one :=
    List.zipWith_foldl_eq_zip_foldl
  rw [folded, anticommutingPositions, ← Nat.zero_add (List.countP _ _)]
  exact foldl_mem_units start (left.zip right)

theorem foldlM_mulWithin {holds : Int → Bool}
    (small : ∀ number ∈ [-1, 0, 1], holds number = true) {start : Phase}
    {count : Nat} (unit : start ∈ Phase.units count) {products : List (Phase × Pauli)}
    (units : ∀ product ∈ products, ∃ count, product.1 ∈ Phase.units count) :
    products.foldlM (fun phase product => phase.mulWithin holds product.1) start =
      some (products.foldl (fun phase product => phase * product.1) start) := by
  induction products generalizing start count with
  | nil => rfl
  | cons product rest induction =>
      rw [List.forall_mem_cons] at units
      rcases units.1 with ⟨more, productUnit⟩
      rw [List.foldlM_cons, Phase.mulWithin_of_mem_units small unit productUnit,
        List.foldl_cons]
      exact induction (Phase.mul_mem_units unit productUnit) units.2

theorem mulWithin_eq_some {holds : Int → Bool}
    (small : ∀ number ∈ [-1, 0, 1], holds number = true) (left right : PauliString) :
    mulWithin holds left right = some (mul left right) := by
  have units : ∀ product ∈ left.zipWith Pauli.mul right,
      ∃ count, product.1 ∈ Phase.units count := by
    intro product member
    rw [← List.map_uncurry_zip_eq_zipWith] at member
    rcases List.mem_map.mp member with ⟨pair, _, rfl⟩
    exact ⟨_, Pauli.mul_fst_mem_units pair.1 pair.2⟩
  have start : Phase.one ∈ Phase.units 0 := by decide
  rw [mulWithin, foldlM_mulWithin small start units]
  rfl

/-! ## Laws -/

section Laws

variable {width : Nat} {first second third : PauliString}

theorem length_mul_snd_of_eq (firstWidth : first.length = width)
    (secondWidth : second.length = width) : (mul first second).2.length = width := by
  rw [length_mul_snd, firstWidth, secondWidth, Nat.min_self]

/-- A product is known by its operator. -/
theorem mul_eq_of_operator {phase : Phase} {product : PauliString}
    (firstWidth : first.length = width) (secondWidth : second.length = width)
    (productWidth : product.length = width)
    (equal : first.operator width * second.operator width =
      phase.toComplex • product.operator width) : mul first second = (phase, product) := by
  rw [operator_mul firstWidth secondWidth] at equal
  have same := smul_operator_inj (length_mul_snd_of_eq firstWidth secondWidth) productWidth
    (Phase.toComplex_ne_zero (mul_fst_mem_units first second)) equal
  exact Prod.ext (Phase.toComplex_injective same.1) same.2

theorem mul_assoc_of_width (firstWidth : first.length = width) (secondWidth : second.length = width)
    (thirdWidth : third.length = width) :
    (mul first second).1 * (mul (mul first second).2 third).1 =
        (mul second third).1 * (mul first (mul second third).2).1 ∧
      (mul (mul first second).2 third).2 = (mul first (mul second third).2).2 := by
  have leftWidth := length_mul_snd_of_eq firstWidth secondWidth
  have rightWidth := length_mul_snd_of_eq secondWidth thirdWidth
  have unit := Phase.mul_mem_units (mul_fst_mem_units first second)
    (mul_fst_mem_units (mul first second).2 third)
  have equal : ((mul first second).1 * (mul (mul first second).2 third).1).toComplex •
      (mul (mul first second).2 third).2.operator width =
        ((mul second third).1 * (mul first (mul second third).2).1).toComplex •
          (mul first (mul second third).2).2.operator width := by
    rw [Phase.toComplex_mul, Phase.toComplex_mul, mul_smul, mul_smul,
      ← operator_mul leftWidth thirdWidth, ← operator_mul firstWidth rightWidth,
      ← smul_mul_assoc, ← mul_smul_comm, ← operator_mul firstWidth secondWidth,
      ← operator_mul secondWidth thirdWidth, mul_assoc]
  have same := smul_operator_inj (length_mul_snd_of_eq leftWidth thirdWidth)
    (length_mul_snd_of_eq firstWidth rightWidth) (Phase.toComplex_ne_zero unit) equal
  exact ⟨Phase.toComplex_injective same.1, same.2⟩

theorem mul_exchange (firstWidth : first.length = width) (secondWidth : second.length = width) :
    mul first second =
      (Phase.sign (anticommutingPositions first second) * (mul second first).1,
        (mul second first).2) := by
  apply mul_eq_of_operator firstWidth secondWidth (length_mul_snd_of_eq secondWidth firstWidth)
  rw [operator_exchange firstWidth secondWidth, operator_mul secondWidth firstWidth, smul_smul,
    Phase.toComplex_mul, Phase.toComplex_sign]

theorem operator_identity : (identity width).operator width = 1 := by
  simp only [operator, symbolAt_identity, Pauli.matrix, Operator.tensor_one]

theorem mul_self (firstWidth : first.length = width) :
    mul first first = (Phase.one, identity width) := by
  apply mul_eq_of_operator firstWidth firstWidth (length_identity width)
  rw [operator_mul_self, operator_identity, Phase.toComplex_one, one_smul]

theorem mul_identity (firstWidth : first.length = width) :
    mul first (identity width) = (Phase.one, first) := by
  apply mul_eq_of_operator firstWidth (length_identity width) firstWidth
  rw [operator_identity, mul_one, Phase.toComplex_one, one_smul]

theorem identity_mul (firstWidth : first.length = width) :
    mul (identity width) first = (Phase.one, first) := by
  apply mul_eq_of_operator (length_identity width) firstWidth firstWidth
  rw [operator_identity, one_mul, Phase.toComplex_one, one_smul]

/-- Strings of one width with their phases form a group, in which every string is its own inverse.
Two strings exchange with a sign for each position at which they anticommute. Their phase is real
or imaginary as the number of these positions is even or odd, and the components that it goes
through are `-1`, `0` and `1` only. -/
theorem mul_laws (firstWidth : first.length = width) (secondWidth : second.length = width)
    (thirdWidth : third.length = width) :
    ((mul first second).1 * (mul (mul first second).2 third).1 =
        (mul second third).1 * (mul first (mul second third).2).1 ∧
      (mul (mul first second).2 third).2 = (mul first (mul second third).2).2) ∧
    (mul first (identity width) = (.one, first) ∧ mul (identity width) first = (.one, first) ∧
      mul first first = (.one, identity width)) ∧
    mul first second = (.sign (anticommutingPositions first second) * (mul second first).1,
      (mul second first).2) ∧
    (Even (anticommutingPositions first second) →
      (mul first second).1 = .one ∨ (mul first second).1 = ⟨-1, 0⟩) ∧
    (Odd (anticommutingPositions first second) →
      (mul first second).1 = .i ∨ (mul first second).1 = .negI) ∧
    mulWithin (fun number => decide (number ∈ [-1, 0, 1])) first second =
      some (mul first second) ∧
    mulWithin (fun number => decide (Word.Fits32 number)) first second =
      some (mul first second) := by
  have unit := mul_fst_mem_units first second
  refine ⟨mul_assoc_of_width firstWidth secondWidth thirdWidth,
    ⟨mul_identity firstWidth, identity_mul firstWidth, mul_self firstWidth⟩,
    mul_exchange firstWidth secondWidth, fun even => ?_, fun odd => ?_,
    mulWithin_eq_some (by decide) first second, mulWithin_eq_some (by decide) first second⟩
  · rw [Phase.units, if_pos (Nat.even_iff.mp even)] at unit
    simpa using unit
  · rw [Phase.units, if_neg (Nat.odd_iff.mp odd ▸ Nat.one_ne_zero)] at unit
    simpa using unit

theorem mul_laws_threeClashes :
    let first : PauliString := [.X, .Y, .Z, .I]
    let second : PauliString := [.Z, .X, .Y, .X]
    let third : PauliString := [.Y, .Y, .I, .Z]
    mul first second = (.sign 3 * (mul second first).1, (mul second first).2) ∧
      ((mul first second).1 = .i ∨ (mul first second).1 = .negI) ∧
      (mul (mul first second).2 third).2 = (mul first (mul second third).2).2 := by
  intro first second third
  have laws := mul_laws (rfl : first.length = 4) (rfl : second.length = 4) (rfl : third.length = 4)
  exact ⟨laws.2.2.1, laws.2.2.2.2.1 (by decide), laws.1.2⟩

end Laws

end PauliString

end LatticeSurgery
