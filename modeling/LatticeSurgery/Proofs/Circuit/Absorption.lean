import LatticeSurgery.Circuit.Litinski
import LatticeSurgery.Proofs.Result

namespace LatticeSurgery

open Result

/-! # Taking quarter rotations out in place

The loop moves a quarter rotation to the end by exchanging it with one block after the
other. It computes what a recursion over the blocks computes: the blocks behind a quarter
rotation are taken through first, and each of them is then changed once. -/

theorem Block.exists_angle_of_isQuarterRotation {block : Block}
    (tested : block.isQuarterRotation = .ok true) :
    ∃ angle, block.kind = .rotation angle ∧ angle.isQuarter = .ok true := by
  rw [isQuarterRotation] at tested
  cases kind : block.kind with
  | rotation angle =>
      rw [kind] at tested
      exact ⟨angle, rfl, tested⟩
  | measurement negative =>
      rw [kind] at tested
      cases tested

namespace Circuit

/-- Move every quarter rotation of a sequence behind its end and drop it. The
rotations that come last are moved first. -/
def absorbQuarters : List Block → Except Fault (List Block)
  | [] => .ok []
  | block :: rest => do
      let rest ← absorbQuarters rest
      match block.kind with
      | .measurement _ => return block :: rest
      | .rotation angle =>
          if ← angle.isQuarter then rest.mapM fun next => next.behindQuarter block angle
          else return block :: rest

variable {qubits : Nat} {quarter : Block} {angle : Angle}

section Moving

variable (turns : quarter.kind = .rotation angle) (isQuarter : angle.isQuarter = .ok true)

include turns isQuarter

theorem result_swapQuarter (before : List Block) (next : Block) (rest : List Block) :
    (swapQuarter before.length).result ⟨qubits, before ++ quarter :: next :: rest⟩ =
      ofFaulty (next.behindQuarter quarter angle) >>= fun moved =>
        .ok ⟨qubits, before ++ moved :: quarter :: rest⟩ := by
  have found : blockAt ⟨qubits, before ++ quarter :: next :: rest⟩ before.length = .ok quarter := by
    simp [blockAt]
  have foundNext : blockAt ⟨qubits, before ++ quarter :: next :: rest⟩ (before.length + 1) =
      .ok next := by
    simp [blockAt]
  have tested : quarterAt ⟨qubits, before ++ quarter :: next :: rest⟩ before.length =
      .ok (quarter, angle) := by
    simp [quarterAt, found, turns, isQuarter]
  simp [swapQuarter, tested, foundNext]

/-- The swaps carry a quarter rotation behind all the blocks that follow it. -/
theorem result_swaps (before rest : List Block) :
    ((List.range' before.length rest.length).forM swapQuarter).result
        ⟨qubits, before ++ quarter :: rest⟩ =
      ofFaulty (rest.mapM fun next => next.behindQuarter quarter angle) >>= fun moved =>
        .ok ⟨qubits, before ++ moved ++ [quarter]⟩ := by
  induction rest generalizing before with
  | nil => simp
  | cons next rest induction =>
      rw [List.length_cons, List.range'_succ, Update.result_forM_cons,
        result_swapQuarter turns isQuarter, List.mapM_cons]
      cases next.behindQuarter quarter angle with
      | error fault => rfl
      | ok moved =>
          have step := induction (before ++ [moved])
          rw [List.length_append, List.length_singleton, List.append_assoc] at step
          simp only [ofFaulty_ok, ok_bind]
          refine step.trans ?_
          cases rest.mapM fun next => next.behindQuarter quarter angle <;> simp

theorem result_absorbQuarter (before rest : List Block) :
    (absorbQuarter before.length).result ⟨qubits, before ++ quarter :: rest⟩ =
      ofFaulty (rest.mapM fun next => next.behindQuarter quarter angle) >>= fun moved =>
        .ok ⟨qubits, before ++ moved⟩ := by
  have count : size ⟨qubits, before ++ quarter :: rest⟩ - 1 - before.length = rest.length := by
    rw [size, List.length_append, List.length_cons]
    omega
  rw [absorbQuarter, Update.result_get_bind, count, Update.result_bind,
    result_swaps turns isQuarter]
  cases rest.mapM fun next => next.behindQuarter quarter angle <;> simp

end Moving

theorem absorbQuarters_keep {block : Block} (tested : block.isQuarterRotation = .ok false)
    (rest : List Block) :
    absorbQuarters (block :: rest) = absorbQuarters rest >>= fun absorbed =>
      .ok (block :: absorbed) := by
  rw [absorbQuarters]
  cases kind : block.kind with
  | measurement negative => rfl
  | rotation angle =>
      rw [Block.isQuarterRotation, kind] at tested
      simp [tested]

theorem absorbQuarters_move (turns : quarter.kind = .rotation angle)
    (isQuarter : angle.isQuarter = .ok true) (rest : List Block) :
    absorbQuarters (quarter :: rest) = absorbQuarters rest >>= fun absorbed =>
      absorbed.mapM fun next => next.behindQuarter quarter angle := by
  rw [absorbQuarters]
  simp [turns, isQuarter]

theorem absorbQuarters_eq_self {blocks : List Block}
    (none : ∀ block ∈ blocks, block.isQuarterRotation = .ok false) :
    absorbQuarters blocks = .ok blocks := by
  induction blocks with
  | nil => rfl
  | cons block rest induction =>
      rw [List.forall_mem_cons] at none
      rw [absorbQuarters_keep none.1, induction none.2]
      rfl

/-- The loop over the positions of the quarter rotations, from the last one to the first. -/
theorem result_absorbEach {blocks : List Block} {quarters : List Bool}
    (tested : List.Forall₂ (fun block isQuarter => block.isQuarterRotation = .ok isQuarter)
      blocks quarters) (before : List Block) :
    ((((quarters.zipIdx before.length).filter Prod.fst).map Prod.snd).reverse.forM
        absorbQuarter).result ⟨qubits, before ++ blocks⟩ =
      ofFaulty (absorbQuarters blocks) >>= fun absorbed => .ok ⟨qubits, before ++ absorbed⟩ := by
  induction tested generalizing before with
  | nil => rfl
  | @cons block isQuarter rest restQuarters blockTested _ induction =>
      -- The blocks behind this one are done first, with this one among those before them.
      have others := induction (before ++ [block])
      rw [List.length_append, List.length_singleton, List.append_assoc,
        List.singleton_append] at others
      rw [List.zipIdx_cons]
      cases isQuarter with
      | false =>
          rw [List.filter_cons_of_neg Bool.false_ne_true, others, absorbQuarters_keep blockTested]
          cases absorbQuarters rest <;> simp
      | true =>
          rcases Block.exists_angle_of_isQuarterRotation blockTested with ⟨angle, turns, tested⟩
          rw [List.filter_cons_of_pos rfl, List.map_cons, List.reverse_cons,
            Update.result_forM_append, others, absorbQuarters_move turns tested]
          cases absorbQuarters rest with
          | error fault => rfl
          | ok absorbed =>
              have moved := @result_absorbQuarter qubits _ _ turns tested before absorbed
              simpa [Update.result_forM_cons] using moved

theorem litinski_eq (circuit : Circuit) :
    circuit.litinski =
      ofFaulty (circuit.blocks.mapM Block.isQuarterRotation) >>= fun quarters =>
        if quarters.contains true then
          if circuit.hasMeasurement then
            ofFaulty (absorbQuarters circuit.blocks) >>= fun absorbed =>
              .ok { circuit with blocks := absorbed }
          else refuse .missingMeasurement
        else .ok circuit := by
  rw [litinski, absorbAll, Update.result_get_bind, Update.result_lift_bind]
  cases tested : circuit.blocks.mapM Block.isQuarterRotation with
  | error fault => rfl
  | ok quarters =>
      have each := @result_absorbEach circuit.qubits _ _ (mapM_eq_ok.mp tested) []
      simp only [ofFaulty_ok, ok_bind]
      cases quarters.contains true with
      | false => rfl
      | true =>
        cases circuit.hasMeasurement with
        | false => rfl
        | true => exact each

/-- Without quarter rotations there is nothing to take out. -/
theorem litinski_eq_self {circuit : Circuit}
    (none : ∀ block ∈ circuit.blocks, block.isQuarterRotation = .ok false) :
    circuit.litinski = .ok circuit := by
  have tested : circuit.blocks.mapM Block.isQuarterRotation =
      .ok (circuit.blocks.map fun _ => false) :=
    mapM_eq_map none
  rw [litinski_eq, tested]
  simp

end Circuit

end LatticeSurgery
