import LatticeSurgery.Compilation
import LatticeSurgery.Proofs.Circuit.BasicForm
import LatticeSurgery.Proofs.Circuit.YFree

namespace LatticeSurgery

open Matrix
open Result (bind_eq_ok)

/-! # Passes keep what is measured

Passes change the evolution of a circuit by operators that come after its last
measurement only. The outcomes of the measurements do not depend on these. -/

/-- The work on a circuit, whose evolution is that of the circuit up to a unitary
operator in the end. The operator is the same for all outcomes. -/
structure Workpiece.Follows (circuit : Circuit) (work : Workpiece) : Prop where
  approximator_eq : work.approximator = Approximator.none
  qubits_eq : work.circuit.qubits = circuit.qubits
  uniform : work.circuit.Uniform
  measurementCount_eq : Block.measurementCount work.circuit.blocks =
    Block.measurementCount circuit.blocks
  evolution_eq : ∃ last ∈ Matrix.unitaryGroup (Bits circuit.qubits) ℂ, ∀ outcomes,
    Block.evolution circuit.qubits circuit.blocks outcomes =
      last * Block.evolution circuit.qubits work.circuit.blocks outcomes

namespace Workpiece.Follows

variable {circuit : Circuit} {work : Workpiece}

theorem start (uniform : circuit.Uniform) :
    Follows circuit (Workpiece.start circuit Approximator.none) :=
  ⟨rfl, rfl, uniform, rfl, 1, one_mem _, fun _ => (one_mul _).symm⟩

/-- A change of the circuit that only adds a unitary operator in the end. -/
theorem transform (follows : Follows circuit work) {changed : Circuit}
    (qubitsEq : changed.qubits = work.circuit.qubits) (uniform : changed.Uniform)
    (countEq : Block.measurementCount changed.blocks = Block.measurementCount work.circuit.blocks)
    {last : Operator work.circuit.qubits}
    (unitary : last ∈ Matrix.unitaryGroup (Bits work.circuit.qubits) ℂ)
    (evolutionEq : ∀ outcomes,
      Block.evolution work.circuit.qubits work.circuit.blocks outcomes =
        last * Block.evolution work.circuit.qubits changed.blocks outcomes) :
    Follows circuit { work with circuit := changed } := by
  rcases follows with ⟨approximatorEq, sameQubits, _, sameCount, before, beforeUnitary, beforeEq⟩
  rcases work with ⟨⟨qubits, blocks⟩, approximator, dependencies, stats⟩
  cases sameQubits
  refine ⟨approximatorEq, qubitsEq, uniform, countEq.trans sameCount, before * last,
    mul_mem beforeUnitary unitary, fun outcomes => ?_⟩
  rw [beforeEq, evolutionEq, mul_assoc]

/-- A change of the circuit that only costs a global sign. -/
theorem agree (follows : Follows circuit work) {changed : Circuit} {sign : ℂ}
    (qubitsEq : changed.qubits = work.circuit.qubits) (uniform : changed.Uniform)
    (isSign : sign ∈ Submonoid.powers (-1 : ℂ))
    (agrees : Block.AgreeUpTo work.circuit.qubits sign work.circuit.blocks changed.blocks) :
    Follows circuit { work with circuit := changed } := by
  have unitary : sign • (1 : Operator work.circuit.qubits) ∈
      Matrix.unitaryGroup (Bits work.circuit.qubits) ℂ := by
    rcases isSign with ⟨exponent, rfl⟩
    rw [Matrix.mem_unitaryGroup_iff]
    rcases neg_one_pow_eq_or ℂ exponent with plus | minus
    · simp [plus]
    · simp [minus]
  refine follows.transform qubitsEq uniform agrees.measurementCount_eq.symm unitary
    fun outcomes => ?_
  rw [agrees.evolution_eq, smul_mul_assoc, one_mul]

end Workpiece.Follows

namespace Pass

variable {circuit : Circuit} {work next : Workpiece}

private theorem transformed_eq_ok {changed : Result CircuitError Circuit}
    (computed : transformed work changed = .ok next) :
    ∃ result, changed = .ok result ∧ next = { work with circuit := result } := by
  rw [transformed, bind_eq_ok] at computed
  rcases computed with ⟨result, widened, nextEq⟩
  cases nextEq
  exact ⟨result, Result.widen_eq_ok.mp widened, rfl⟩

theorem follows_run {pass : Pass} (follows : work.Follows circuit)
    (computed : pass.run work = .ok next) : next.Follows circuit := by
  cases pass with
  | basicForm =>
      rcases transformed_eq_ok computed with ⟨basic, basicEq, rfl⟩
      rw [follows.approximator_eq] at basicEq
      rcases Circuit.agreeUpTo_basicForm basicEq with ⟨qubitsEq, sign, isSign, agrees⟩
      exact follows.agree qubitsEq (Circuit.uniform_basicForm follows.uniform basicEq) isSign agrees
  | yFree =>
      rcases transformed_eq_ok computed with ⟨changed, changedEq, rfl⟩
      cases changedEq
      exact follows.agree rfl (Circuit.uniform_yFree follows.uniform) (Submonoid.one_mem _)
        (Circuit.agreeUpTo_yFree follows.uniform)
  | litinski =>
      rcases transformed_eq_ok computed with ⟨changed, changedEq, rfl⟩
      rcases Circuit.evolution_of_litinski follows.uniform changedEq with
        ⟨qubitsEq, wide, countEq, evolutionEq⟩
      have uniform : changed.Uniform := fun block member =>
        (wide block member).trans qubitsEq.symm
      exact follows.transform qubitsEq uniform countEq
        (Block.evolution_mem_unitaryGroup
          (fun _ member => Block.isRotation_of_mem_quarterRotations member) fun _ => .plus)
        fun outcomes => evolutionEq outcomes fun _ => .plus
  | dependencies =>
      rw [run, bind_eq_ok] at computed
      rcases computed with ⟨_, _, computed⟩
      rcases bind_eq_ok.mp computed with ⟨_, _, nextEq⟩
      cases nextEq
      exact ⟨follows.approximator_eq, follows.qubits_eq, follows.uniform,
        follows.measurementCount_eq, follows.evolution_eq⟩
  | verification =>
      rw [run, bind_eq_ok] at computed
      rcases computed with ⟨_, _, nextEq⟩
      cases nextEq
      exact ⟨follows.approximator_eq, follows.qubits_eq, follows.uniform,
        follows.measurementCount_eq, follows.evolution_eq⟩

theorem follows_runIfNeeded {pass : Pass} (follows : work.Follows circuit)
    (computed : pass.runIfNeeded work = .ok next) : next.Follows circuit := by
  rw [runIfNeeded, bind_eq_ok] at computed
  rcases computed with ⟨needed, _, computed⟩
  split at computed
  · exact follows_run follows computed
  · cases computed
    exact follows

theorem follows_runAll {passes : List Pass} (follows : work.Follows circuit)
    (finished : runAll passes work = (next, .ok ())) : next.Follows circuit := by
  induction passes generalizing work with
  | nil =>
      cases finished
      exact follows
  | cons pass rest induction =>
      rw [runAll] at finished
      split at finished
      · next after ran => exact induction (follows_runIfNeeded follows ran) finished
      · cases finished

end Pass

namespace Options

/-- When the passes of a compilation finish without approximations, the circuit that
they leave has as many measurements as the given one, and the evolution of the given
circuit is that of the circuit left behind followed by a unitary operator that does
not depend on the outcomes. -/
theorem evolution_eq_of_passes (options : Options) {circuit : Circuit} (uniform : circuit.Uniform)
    {work : Workpiece}
    (finished : Pass.runAll options.passes (Workpiece.start circuit Approximator.none) =
      (work, .ok ())) :
    work.circuit.qubits = circuit.qubits ∧ work.circuit.Uniform ∧
      work.circuit.measurementCount = circuit.measurementCount ∧
      ∃ last ∈ Matrix.unitaryGroup (Bits circuit.qubits) ℂ, ∀ outcomes,
        Block.evolution circuit.qubits circuit.blocks outcomes =
          last * Block.evolution circuit.qubits work.circuit.blocks outcomes := by
  have follows := Pass.follows_runAll (Workpiece.Follows.start uniform) finished
  exact ⟨follows.qubits_eq, follows.uniform, follows.measurementCount_eq, follows.evolution_eq⟩

/-- A rotation about YZ by three eighths and a measurement of -YX go through all passes. -/
theorem evolution_eq_of_passes_threeEighths :
    let circuit : Circuit := ⟨2, [.rotation [.Y, .Z] ⟨3, 8, by decide, by decide, by decide⟩,
      .measurement [.Y, .X] true]⟩
    let ran := Pass.runAll ({} : Options).passes (Workpiece.start circuit Approximator.none)
    ran.2 = .ok () ∧ ran.1.circuit.measurementCount = 1 ∧
      ∃ last ∈ Matrix.unitaryGroup (Bits 2) ℂ, ∀ outcomes,
        Block.evolution 2 circuit.blocks outcomes =
          last * Block.evolution 2 ran.1.circuit.blocks outcomes := by
  intro circuit ran
  have uniform : circuit.Uniform := by decide
  have finished : ran.2 = .ok () := by decide +kernel
  have complete : ran = (ran.1, .ok ()) := by rw [← finished]
  rcases evolution_eq_of_passes {} uniform complete with ⟨_, _, countEq, evolutionEq⟩
  exact ⟨finished, countEq, evolutionEq⟩

end Options

end LatticeSurgery
