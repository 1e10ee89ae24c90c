import LatticeSurgery.Circuit
import LatticeSurgery.Operation
import LatticeSurgery.Proofs.Operator.Rotation

namespace LatticeSurgery

open Matrix

/-! # Evolution of a register

A rotation acts as its exponential. A measurement with a given outcome acts as the
projector to the eigenspace of that outcome, so the evolution under a sequence of
blocks is an operator for every choice of the outcomes of its measurements. -/

namespace Outcome

noncomputable def sign (outcome : Outcome) : ℂ := outcome.value

@[simp] theorem sign_plus : plus.sign = 1 := by simp [sign, value]

@[simp] theorem sign_minus : minus.sign = -1 := by simp [sign, value]

end Outcome

namespace BlockKind

variable {width : Nat}

/-- The action about an axis. A measurement of the negative of its axis projects to
the opposite eigenspace. -/
noncomputable def action (outcome : Outcome) (axis : Operator width) : BlockKind → Operator width
  | .rotation angle => axis.rotation angle.value
  | .measurement negative =>
      Operator.eigenprojector axis (if negative then -outcome.sign else outcome.sign)

/-- An operator that carries one axis to another carries the actions along. -/
theorem mul_action {before after through : Operator width}
    (beforeInvolution : before * before = 1) (afterInvolution : after * after = 1)
    (carried : through * before = after * through) (kind : BlockKind) (outcome : Outcome) :
    through * kind.action outcome before = kind.action outcome after * through := by
  cases kind with
  | rotation angle =>
      exact Operator.mul_rotation beforeInvolution afterInvolution carried angle.value
  | measurement negative => exact Operator.mul_eigenprojector_of_carried carried _

end BlockKind

namespace Block

variable {width : Nat}

noncomputable def operator (width : Nat) (block : Block) (outcome : Outcome) : Operator width :=
  block.kind.action outcome (block.symbols.operator width)

/-! The outcomes of a sequence are given in the order of its measurements. -/

abbrev Outcomes := Nat → Outcome

/-- The outcomes that are left after a number of measurements. -/
def Outcomes.after (outcomes : Outcomes) (count : Nat) : Outcomes := fun index =>
  outcomes (count + index)

@[simp] theorem Outcomes.after_zero (outcomes : Outcomes) : outcomes.after 0 = outcomes := by
  funext index
  simp [after]

@[simp] theorem Outcomes.after_after (outcomes : Outcomes) (first second : Nat) :
    (outcomes.after first).after second = outcomes.after (first + second) := by
  funext index
  simp [after, Nat.add_assoc]

def measurementCount (blocks : List Block) : Nat := blocks.countP isMeasurement

@[simp] theorem measurementCount_append (first second : List Block) :
    measurementCount (first ++ second) = measurementCount first + measurementCount second := by
  simp [measurementCount]

theorem measurementCount_cons (block : Block) (rest : List Block) :
    measurementCount (block :: rest) = measurementCount [block] + measurementCount rest := by
  rw [← measurementCount_append, List.singleton_append]

theorem measurementCount_eq_zero {blocks : List Block}
    (rotations : ∀ block ∈ blocks, block.isRotation = true) : measurementCount blocks = 0 := by
  apply List.countP_eq_zero.mpr
  intro block member
  have turning := rotations block member
  rw [isRotation, Option.isSome_iff_ne_none] at turning
  rwa [isMeasurement, Option.isNone_iff_eq_none]

/-- The time-ordered product of the operators of a sequence, the last one leftmost. -/
noncomputable def evolution (width : Nat) : List Block → Outcomes → Operator width
  | [], _ => 1
  | block :: rest, outcomes =>
      evolution width rest (outcomes.after (measurementCount [block])) *
        block.operator width (outcomes 0)

@[simp] theorem evolution_nil (outcomes : Outcomes) : evolution width [] outcomes = 1 := rfl

theorem evolution_cons (block : Block) (rest : List Block) (outcomes : Outcomes) :
    evolution width (block :: rest) outcomes =
      evolution width rest (outcomes.after (measurementCount [block])) *
        block.operator width (outcomes 0) := rfl

@[simp] theorem evolution_singleton (block : Block) (outcomes : Outcomes) :
    evolution width [block] outcomes = block.operator width (outcomes 0) := by
  rw [evolution_cons, evolution_nil, one_mul]

theorem evolution_append (first second : List Block) (outcomes : Outcomes) :
    evolution width (first ++ second) outcomes =
      evolution width second (outcomes.after (measurementCount first)) *
        evolution width first outcomes := by
  induction first generalizing outcomes with
  | nil => simp [measurementCount]
  | cons block rest induction =>
      rw [List.cons_append, evolution_cons, induction, evolution_cons, Outcomes.after_after,
        ← measurementCount_cons, mul_assoc]

/-- A sequence of rotations is unitary. -/
theorem evolution_mem_unitaryGroup {blocks : List Block}
    (rotations : ∀ block ∈ blocks, block.isRotation = true) (outcomes : Outcomes) :
    evolution width blocks outcomes ∈ Matrix.unitaryGroup (Bits width) ℂ := by
  induction blocks generalizing outcomes with
  | nil => exact one_mem _
  | cons block rest induction =>
      rw [evolution_cons]
      apply mul_mem
      · exact induction (fun other member => rotations other (List.mem_cons_of_mem _ member)) _
      · have turning := rotations block List.mem_cons_self
        rcases block with ⟨symbols, angle | negative⟩
        · exact Operator.rotation_mem_unitaryGroup symbols.isHermitian_operator _
        · simp [isRotation, angle?] at turning

/-! ## Sequences that agree up to a scalar -/

/-- Two sequences with equally many measurements whose evolutions differ by the same
scalar factor for all outcomes. -/
structure AgreeUpTo (width : Nat) (factor : ℂ) (left right : List Block) : Prop where
  measurementCount_eq : measurementCount left = measurementCount right
  evolution_eq : ∀ outcomes,
    evolution width left outcomes = factor • evolution width right outcomes

namespace AgreeUpTo

variable {first second firstFactor secondFactor : ℂ} {left right left' right' : List Block}

theorem refl (blocks : List Block) : AgreeUpTo width 1 blocks blocks :=
  ⟨rfl, fun _ => (one_smul ℂ _).symm⟩

theorem append (firstAgrees : AgreeUpTo width firstFactor left right)
    (secondAgrees : AgreeUpTo width secondFactor left' right') :
    AgreeUpTo width (firstFactor * secondFactor) (left ++ left') (right ++ right') where
  measurementCount_eq := by
    rw [measurementCount_append, measurementCount_append, firstAgrees.measurementCount_eq,
      secondAgrees.measurementCount_eq]
  evolution_eq outcomes := by
    rw [evolution_append, evolution_append, firstAgrees.evolution_eq, secondAgrees.evolution_eq,
      firstAgrees.measurementCount_eq, smul_mul_smul_comm, mul_comm secondFactor]

/-- Replacing every block by a part that agrees with it up to a factor from a set of
factors that is closed under products. -/
theorem flatten {factors : Submonoid ℂ} {blocks : List Block} {parts : List (List Block)}
    (replaced : List.Forall₂
      (fun block part => ∃ factor ∈ factors, AgreeUpTo width factor [block] part) blocks parts) :
    ∃ factor ∈ factors, AgreeUpTo width factor blocks parts.flatten := by
  induction replaced with
  | nil => exact ⟨1, factors.one_mem, refl []⟩
  | cons head _ induction =>
      rcases head with ⟨headFactor, headMem, headAgrees⟩
      rcases induction with ⟨restFactor, restMem, restAgrees⟩
      exact ⟨headFactor * restFactor, factors.mul_mem headMem restMem,
        headAgrees.append restAgrees⟩

end AgreeUpTo

end Block

end LatticeSurgery
