import LatticeSurgery.Pass
import LatticeSurgery.Proofs.Angle.Value

namespace LatticeSurgery

open Result

/-! # Blocks that have gadgets

A block has a gadget when it contains no Y, when it does not measure the identity, and when
its angle is basic. These are the blocks that the verification counts through. -/

/-- The block has a gadget. -/
structure Block.Ready (block : Block) : Prop where
  containsY : block.containsY = false
  measures : block.isMeasurement = true → block.isIdentity = false
  turns : ∀ angle, block.kind = .rotation angle → block.isIdentity = false →
    angle.isBasic = .ok true

namespace CircuitStats

private theorem exists_sizes_iff {stats : CircuitStats} {angle : Angle} {index : Nat} :
    (∃ next, (do
      if ← angle.isHalf then return { stats with halves := stats.halves + 1 }
      if ← angle.isQuarter then return { stats with quarters := stats.quarters + 1 }
      if ← angle.isEighth then return { stats with eighths := stats.eighths + 1 }
      Result.refuse (.angleOutside index angle) : Result Unready CircuitStats) = .ok next) ↔
      angle.isBasic = .ok true := by
  rw [Angle.isBasic]
  rcases half : angle.isHalf with fault | isHalf
  · simp
  · cases isHalf
    · rcases quarter : angle.isQuarter with fault | isQuarter
      · simp
      · cases isQuarter
        · rcases eighth : angle.isEighth with fault | isEighth
          · simp
          · cases isEighth <;> simp
        · simp
    · simp

/-- Ready blocks are the ones that are counted. -/
theorem exists_count_iff {stats : CircuitStats} {block : Block} {index : Nat} :
    (∃ next, stats.count (block, index) = .ok next) ↔ block.Ready := by
  rw [count]
  cases withY : block.containsY with
  | true =>
      have unready : ¬ block.Ready := fun ready =>
        Bool.false_ne_true (ready.containsY.symm.trans withY)
      simp [unready]
  | false =>
      cases kind : block.kind with
      | measurement negative =>
          have measures : block.isMeasurement = true := by
            simp [Block.isMeasurement, Block.angle?, kind]
          have ready : block.Ready ↔ block.isIdentity = false :=
            ⟨fun ready => ready.measures measures, fun acts =>
              ⟨withY, fun _ => acts, fun angle rotates => nomatch kind.symm.trans rotates⟩⟩
          rw [ready]
          cases block.isIdentity <;> simp
      | rotation angle =>
          have ready : block.Ready ↔ (block.isIdentity = false → angle.isBasic = .ok true) := by
            constructor
            · intro ready
              exact ready.turns angle kind
            · intro basic
              refine ⟨withY, fun measures => ?_, fun other rotates => ?_⟩
              · simp [Block.isMeasurement, Block.angle?, kind] at measures
              · cases kind.symm.trans rotates
                exact basic
          rw [ready]
          cases block.isIdentity with
          | true => simp
          | false =>
              simp only [Bool.false_eq_true, if_false, forall_const]
              exact exists_sizes_iff

theorem exists_ofCircuit_iff {circuit : Circuit} :
    (∃ stats, ofCircuit circuit = .ok stats) ↔ ∀ block ∈ circuit.blocks, block.Ready := by
  have each (stats : CircuitStats) (entry : Block × Nat) :
      (∃ next, stats.count entry = .ok next) ↔ entry.1.Ready := exists_count_iff
  rw [ofCircuit, exists_foldlM_iff each, ← List.forall_mem_map (f := Prod.fst) (P := Block.Ready),
    List.zipIdx_map_fst]

/-! ## Refusals

Only an angle whose numerator has no opposite ends the verification with a fault. -/

theorem refused_of_count {stats : CircuitStats} {block : Block} {index : Nat}
    (invertible : ∀ angle, block.kind = .rotation angle → angle.numer ≠ -Word.limit64)
    {failure : Failure Unready} (failed : stats.count (block, index) = .error failure) :
    ∃ reason, failure = .refused reason := by
  rw [count] at failed
  cases withY : block.containsY with
  | true =>
      rw [withY] at failed
      exact ⟨_, (Except.error.inj failed).symm⟩
  | false =>
      simp only [withY, Bool.false_eq_true, if_false] at failed
      cases kind : block.kind with
      | measurement negative =>
          rw [kind] at failed
          cases identity : block.isIdentity with
          | true =>
              rw [identity] at failed
              exact ⟨_, (Except.error.inj failed).symm⟩
          | false =>
              rw [identity] at failed
              cases failed
      | rotation angle =>
          rw [kind] at failed
          cases identity : block.isIdentity with
          | true =>
              rw [identity] at failed
              cases failed
          | false =>
              have tested (magnitude : Angle) :
                  ∃ answer, angle.hasMagnitude magnitude = .ok answer :=
                Angle.exists_hasMagnitude (invertible angle kind) magnitude
              rcases tested .half with ⟨isHalf, half⟩
              rcases tested .quarter with ⟨isQuarter, quarter⟩
              rcases tested .eighth with ⟨isEighth, eighth⟩
              simp only [identity, Bool.false_eq_true, if_false, Angle.isHalf, Angle.isQuarter,
                Angle.isEighth, half, quarter, eighth, liftM_eq_ofFaulty, ofFaulty_ok,
                ok_bind] at failed
              cases isHalf with
              | true => cases failed
              | false =>
                  cases isQuarter with
                  | true => cases failed
                  | false =>
                      cases isEighth with
                      | true => cases failed
                      | false => exact ⟨_, (Except.error.inj failed).symm⟩

theorem refused_of_ofCircuit {circuit : Circuit}
    (invertible : ∀ block ∈ circuit.blocks, ∀ angle, block.kind = .rotation angle →
      angle.numer ≠ -Word.limit64)
    {failure : Failure Unready} (failed : ofCircuit circuit = .error failure) :
    ∃ reason, failure = .refused reason := by
  apply of_foldlM_error (fun failure => ∃ reason, failure = .refused reason) _ failed
  intro stats entry member failure
  exact refused_of_count (invertible entry.1 (List.fst_mem_of_mem_zipIdx member))

end CircuitStats

end LatticeSurgery
