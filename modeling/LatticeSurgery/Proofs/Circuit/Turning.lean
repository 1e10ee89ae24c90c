import LatticeSurgery.Proofs.Circuit.Fitting

namespace LatticeSurgery

open Matrix Result

/-! # Sequences of quarter rotations

Quarter rotations that are taken out one after the other change the blocks behind them as the
operator of the whole sequence does. A block is determined by what it has become, so sequences
with the same operator change the blocks in the same way. -/

namespace Block

variable {width : Nat}

namespace Carried

variable {through further : Operator width} {next moved last : Block}

theorem refl (nextWidth : next.width = width) : Carried width 1 next next :=
  ⟨nextWidth, 1, .kept, by rw [one_smul, mul_one, one_mul]⟩

theorem trans (first : Carried width through next moved)
    (second : Carried width further moved last) :
    Carried width (through * further) next last := by
  rcases first.turned with ⟨sign, signed, turned⟩
  rcases second.turned with ⟨nextSign, nextSigned, nextTurned⟩
  refine ⟨second.width_eq, sign * nextSign, signed.trans nextSigned, ?_⟩
  calc next.symbols.operator width * (through * further)
      = through * sign • (moved.symbols.operator width * further) := by
        rw [← mul_assoc, turned, mul_assoc, smul_mul_assoc]
    _ = through * further * (sign * nextSign) • last.symbols.operator width := by
        rw [nextTurned, mul_smul_comm, mul_smul_comm, mul_smul_comm, mul_smul_comm, smul_smul,
          mul_assoc]

/-- What a block becomes in front of a unitary operator is determined. -/
theorem unique {other : Block} (unitary : through ∈ Matrix.unitaryGroup (Bits width) ℂ)
    (first : Carried width through next moved) (second : Carried width through next other) :
    moved = other := by
  rcases first.turned with ⟨sign, signed, turned⟩
  rcases second.turned with ⟨otherSign, otherSigned, otherTurned⟩
  have inverse := Matrix.mem_unitaryGroup_iff'.mp unitary
  have equal : sign • moved.symbols.operator width = otherSign • other.symbols.operator width := by
    have products := congrArg (star through * ·) (turned.symm.trans otherTurned)
    simpa only [← mul_assoc, inverse, one_mul] using products
  have nonzero : sign ≠ 0 := by
    rintro rfl
    simpa using signed.sign_mul_self
  rcases PauliString.smul_operator_inj first.width_eq second.width_eq nonzero equal with
    ⟨rfl, symbols⟩
  have kinds := signed.unique otherSigned
  rcases moved with ⟨movedSymbols, movedKind⟩
  rcases other with ⟨otherSymbols, otherKind⟩
  rw [Block.mk.injEq]
  exact ⟨symbols, kinds⟩

theorem forall₂_unique {blocks carried others : List Block}
    (unitary : through ∈ Matrix.unitaryGroup (Bits width) ℂ)
    (first : List.Forall₂ (Carried width through) blocks carried)
    (second : List.Forall₂ (Carried width through) blocks others) : carried = others := by
  have determined : Relator.RightUnique (Carried width through) := fun _ _ _ => unique unitary
  exact determined.forall₂ first second

end Carried

/-- A quarter rotation of a given width. -/
structure IsQuarter (width : Nat) (block : Block) : Prop where
  width_eq : block.width = width
  tested : block.isQuarterRotation = .ok true

theorem IsQuarter.isRotation {block : Block} (quarter : block.IsQuarter width) :
    block.isRotation = true := by
  rcases exists_angle_of_isQuarterRotation quarter.tested with ⟨angle, turns, _⟩
  rw [Block.isRotation, angle?, turns]
  rfl

theorem evolution_mem_unitaryGroup_of_quarters {quarters : List Block}
    (turning : ∀ block ∈ quarters, block.IsQuarter width) (outcomes : Outcomes) :
    evolution width quarters outcomes ∈ Matrix.unitaryGroup (Bits width) ℂ :=
  evolution_mem_unitaryGroup (fun block member => (turning block member).isRotation) outcomes

end Block

namespace Circuit

variable {width : Nat}

/-- What is taken out of a sequence behind some blocks only depends on what is left of it. -/
theorem absorbQuarters_append_congr (front : List Block) {rest other : List Block}
    (same : absorbQuarters rest = absorbQuarters other) :
    absorbQuarters (front ++ rest) = absorbQuarters (front ++ other) := by
  induction front with
  | nil => exact same
  | cons block front induction =>
      rw [List.cons_append, List.cons_append, absorbQuarters, absorbQuarters, induction]

/-- Quarter rotations in front of a sequence change what is left of it by their evolution. -/
theorem exists_absorbQuarters_append {quarters rest absorbed : List Block}
    (turning : ∀ block ∈ quarters, block.IsQuarter width)
    (computed : absorbQuarters rest = .ok absorbed)
    (fits : ∀ block ∈ absorbed, block.Fits width) (outcomes : Block.Outcomes) :
    ∃ moved, absorbQuarters (quarters ++ rest) = .ok moved ∧
      (∀ block ∈ moved, block.Fits width) ∧
      List.Forall₂ (Block.Carried width (Block.evolution width quarters outcomes))
        absorbed moved := by
  induction quarters with
  | nil =>
      exact ⟨absorbed, computed, fits, List.forall₂_same.mpr fun block member =>
        .refl (fits block member).width⟩
  | cons quarter others induction =>
      rw [List.forall_mem_cons] at turning
      rcases induction turning.2 with ⟨between, betweenEq, betweenFit, carried⟩
      rcases Block.exists_angle_of_isQuarterRotation turning.1.tested with ⟨angle, turns, isQuarter⟩
      have each : ∀ next ∈ between, ∃ moved, next.behindQuarter quarter angle = .ok moved ∧
          moved.Fits width ∧
          Block.Carried width (quarter.operator width (outcomes 0)) next moved := by
        intro next member
        have nextFits := betweenFit next member
        rcases nextFits.exists_behindQuarter turning.1.width_eq angle with
          ⟨moved, movedEq, movedTurned⟩
        refine ⟨moved, movedEq, movedTurned.fits nextFits, ?_⟩
        rw [Block.operator, turns]
        exact Block.carried_behindQuarter turning.1.width_eq nextFits.width isQuarter movedEq
      rcases exists_mapM each with ⟨moved, movedEq, related⟩
      have count : Block.measurementCount [quarter] = 0 :=
        Block.measurementCount_eq_zero (List.forall_mem_singleton.mpr turning.1.isRotation)
      refine ⟨moved, ?_, fun block member => ?_, ?_⟩
      · rw [List.cons_append, absorbQuarters_move turns isQuarter, betweenEq, ok_bind, movedEq]
      · rcases exists_of_mem_right related member with ⟨_, _, movedFits, _⟩
        exact movedFits
      · rw [Block.evolution_cons, count, Block.Outcomes.after_zero]
        exact forall₂_trans .trans carried (related.imp fun _ _ both => both.2)

/-- Quarter rotations that evolve alike are taken out alike. -/
theorem absorbQuarters_append_eq {first second rest : List Block} {outcomes : Block.Outcomes}
    (firstTurning : ∀ block ∈ first, block.IsQuarter width)
    (secondTurning : ∀ block ∈ second, block.IsQuarter width)
    (same : Block.evolution width first outcomes = Block.evolution width second outcomes)
    (restFits : ∀ block ∈ rest, block.Fits width) :
    absorbQuarters (first ++ rest) = absorbQuarters (second ++ rest) := by
  have unitary := Block.evolution_mem_unitaryGroup_of_quarters secondTurning outcomes
  rcases exists_absorbQuarters_of_fits restFits with ⟨absorbed, absorbedEq, absorbedFit⟩
  rcases exists_absorbQuarters_append firstTurning absorbedEq absorbedFit outcomes with
    ⟨moved, movedEq, _, carried⟩
  rcases exists_absorbQuarters_append secondTurning absorbedEq absorbedFit outcomes with
    ⟨others, othersEq, _, othersCarried⟩
  rw [same] at carried
  rw [movedEq, othersEq, Block.Carried.forall₂_unique unitary carried othersCarried]

end Circuit

/-! ## Conjugations -/

namespace Block

variable {width : Nat} {before after : List Block}

theorem TurnsAboutZ.isQuarter {block : Block} (turns : block.TurnsAboutZ width) :
    block.IsQuarter width := by
  refine ⟨turns.width_eq, ?_⟩
  rw [isQuarterRotation]
  cases turns.kind with
  | inl forwards =>
      rw [forwards]
      exact Angle.isQuarter_quarter
  | inr backwards =>
      rw [backwards]
      exact Angle.isQuarter_negQuarter

/-- Rotations around a rotation. -/
private theorem evolution_around (quiet : measurementCount before = 0) (symbols : PauliString)
    (angle : Angle) (outcomes : Outcomes) :
    evolution width (before ++ ⟨symbols, .rotation angle⟩ :: after) outcomes =
      evolution width after outcomes * (symbols.operator width).rotation angle.value *
        evolution width before outcomes := by
  have rotates : measurementCount [⟨symbols, .rotation angle⟩] = 0 := rfl
  rw [evolution_append, quiet, Outcomes.after_zero, evolution_cons, rotates, Outcomes.after_zero,
    operator, BlockKind.action]

/-- The rotations behind a block undo those in front of it, which carry its product to the one
without Y. Both are read off blocks of particular kinds: a rotation by nothing and a rotation
by a half turn. -/
theorem Mirrored.carries {symbols : PauliString} (mirrored : Mirrored symbols.length before after)
    (surrounds : ∀ kind, yFree ⟨symbols, kind⟩ = before ++ ⟨xForY symbols, kind⟩ :: after)
    (outcomes : Outcomes) :
    evolution symbols.length after outcomes * evolution symbols.length before outcomes = 1 ∧
      (xForY symbols).operator symbols.length * evolution symbols.length before outcomes =
        evolution symbols.length before outcomes * symbols.operator symbols.length := by
  have quiet : measurementCount before = 0 := by
    apply measurementCount_eq_zero
    intro block member
    exact (mirrored.aboutZ block (List.mem_append_left _ member)).isQuarter.isRotation
  have acts (angle : Angle) : evolution symbols.length after outcomes *
      ((xForY symbols).operator symbols.length).rotation angle.value *
        evolution symbols.length before outcomes =
      (symbols.operator symbols.length).rotation angle.value := by
    have whole := @actsAs_yFree symbols.length ⟨symbols, .rotation angle⟩ rfl
    have around := whole.evolution_eq outcomes
    rw [surrounds, evolution_around quiet] at around
    exact around
  have undone := acts .zero
  rw [Angle.value_zero, Operator.rotation_zero, Operator.rotation_zero, mul_one] at undone
  have turned := acts .half
  rw [Angle.value_half, Operator.rotation_half (PauliString.operator_mul_self _),
    Operator.rotation_half (PauliString.operator_mul_self _), mul_smul_comm,
    smul_mul_assoc] at turned
  have restored := smul_right_injective _ (neg_ne_zero.mpr Complex.I_ne_zero) turned
  have undoneBefore := mul_eq_one_comm.mp undone
  refine ⟨undone, ?_⟩
  rw [← restored, ← mul_assoc, ← mul_assoc, undoneBefore, one_mul]

end Block

namespace Circuit

variable {width : Nat}

/-- The rotations around a block that is not taken out itself leave it behind as it was. -/
private theorem absorbQuarters_conjugated {symbols : PauliString} {kind : BlockKind}
    {before after rest absorbed : List Block}
    (mirrored : Block.Mirrored symbols.length before after)
    (surrounds : ∀ kind, Block.yFree ⟨symbols, kind⟩ =
      before ++ ⟨Block.xForY symbols, kind⟩ :: after)
    (tested : Block.isQuarterRotation ⟨symbols, kind⟩ = .ok false)
    (fits : Block.Fits symbols.length ⟨symbols, kind⟩)
    (absorbedEq : absorbQuarters rest = .ok absorbed)
    (absorbedFit : ∀ block ∈ absorbed, block.Fits symbols.length) :
    absorbQuarters (Block.yFree ⟨symbols, kind⟩ ++ rest) = .ok (⟨symbols, kind⟩ :: absorbed) := by
  have turning : ∀ block ∈ before ++ after, block.IsQuarter symbols.length := fun block member =>
    (mirrored.aboutZ block member).isQuarter
  rw [List.forall_mem_append] at turning
  let outcomes : Block.Outcomes := fun _ => .plus
  rcases mirrored.carries surrounds outcomes with ⟨undone, turned⟩
  let core : Block := ⟨Block.xForY symbols, kind⟩
  have coreTested : core.isQuarterRotation = .ok false := tested
  have coreFits : core.Fits symbols.length := ⟨List.length_map _, fits.regular⟩
  rcases exists_absorbQuarters_append turning.2 absorbedEq absorbedFit outcomes with
    ⟨behind, behindEq, behindFit, carriedBehind⟩
  have withCore : absorbQuarters (core :: (after ++ rest)) = .ok (core :: behind) := by
    rw [absorbQuarters_keep coreTested, behindEq]
    rfl
  rcases exists_absorbQuarters_append turning.1 withCore
    (List.forall_mem_cons.mpr ⟨coreFits, behindFit⟩) outcomes with ⟨moved, movedEq, _, carried⟩
  cases carried with
  | @cons _ movedCore _ movedBehind carriedCore carriedAll =>
      have unitary := Block.evolution_mem_unitaryGroup_of_quarters turning.1 outcomes
      have restored : Block.Carried symbols.length (Block.evolution symbols.length before outcomes)
          core ⟨symbols, kind⟩ := ⟨rfl, 1, .kept, by rw [one_smul]; exact turned⟩
      have same := forall₂_trans Block.Carried.trans carriedBehind carriedAll
      rw [undone] at same
      have unchanged : List.Forall₂ (Block.Carried symbols.length 1) absorbed absorbed :=
        List.forall₂_same.mpr fun block member => .refl (absorbedFit block member).width
      rw [surrounds, List.append_assoc, List.cons_append, movedEq,
        carriedCore.unique unitary restored,
        Block.Carried.forall₂_unique (one_mem _) same unchanged]

/-- The quarter rotations around a block without Y are taken out of a circuit without a trace. -/
theorem absorbQuarters_yFree_append {block : Block} {rest : List Block} (fits : block.Fits width)
    (restFits : ∀ other ∈ rest, other.Fits width) :
    absorbQuarters (block.yFree ++ rest) = absorbQuarters (block :: rest) := by
  rcases block with ⟨symbols, kind⟩
  have length : symbols.length = width := fits.width
  subst length
  rcases Block.exists_mirrored_yFree symbols with ⟨before, after, mirrored, _, surrounds⟩
  rcases fits.exists_isQuarterRotation with ⟨isQuarter, tested⟩
  cases isQuarter with
  | true =>
      -- All blocks are taken out, and they act together as the one that they replace.
      have turning : ∀ other ∈ Block.yFree ⟨symbols, kind⟩, other.IsQuarter symbols.length := by
        intro other member
        rw [surrounds, List.perm_middle.mem_iff, List.mem_cons] at member
        cases member with
        | inl isCore =>
            rw [isCore]
            exact ⟨List.length_map _, tested⟩
        | inr around => exact (mirrored.aboutZ other around).isQuarter
      have alone : ∀ other ∈ [(⟨symbols, kind⟩ : Block)], other.IsQuarter symbols.length :=
        List.forall_mem_singleton.mpr ⟨rfl, tested⟩
      have acts := @Block.actsAs_yFree symbols.length ⟨symbols, kind⟩ rfl
      have same : Block.evolution symbols.length (Block.yFree ⟨symbols, kind⟩) (fun _ => .plus) =
          Block.evolution symbols.length [⟨symbols, kind⟩] fun _ => .plus := by
        rw [acts.evolution_eq, Block.evolution_singleton, Block.operator]
      exact absorbQuarters_append_eq turning alone same restFits
  | false =>
      rcases exists_absorbQuarters_of_fits restFits with ⟨absorbed, absorbedEq, absorbedFit⟩
      rw [absorbQuarters_conjugated mirrored surrounds tested fits absorbedEq absorbedFit,
        absorbQuarters_keep tested, absorbedEq]
      rfl

/-- The rest of the circuit is normalized first, so that what stands in front of it is changed
one block at a time. -/
theorem absorbQuarters_flatMap_yFree {blocks : List Block}
    (fits : ∀ block ∈ blocks, block.Fits width) :
    absorbQuarters (blocks.flatMap Block.yFree) = absorbQuarters blocks := by
  induction blocks with
  | nil => rfl
  | cons block rest induction =>
      rw [List.forall_mem_cons] at fits
      have front := absorbQuarters_append_congr block.yFree (induction fits.2)
      rw [List.flatMap_cons, front, absorbQuarters_yFree_append fits.1 fits.2]

end Circuit

/-! ## The transform as a whole -/

namespace Circuit

variable {width : Nat} {circuit : Circuit}

/-- In a measured circuit the quarter rotations are taken out whether or not there are any. -/
theorem litinski_of_measured (fits : ∀ block ∈ circuit.blocks, block.Fits width)
    (measured : circuit.hasMeasurement = true) :
    circuit.litinski = ofFaulty (absorbQuarters circuit.blocks) >>= fun absorbed =>
      .ok { circuit with blocks := absorbed } := by
  rcases exists_mapM_of_forall fun block member => (fits block member).exists_isQuarterRotation with
    ⟨quarters, tested⟩
  rw [litinski_eq, tested, ofFaulty_ok, ok_bind, if_pos measured]
  cases present : quarters.contains true with
  | true => rfl
  | false =>
      have none : ∀ block ∈ circuit.blocks, block.isQuarterRotation = .ok false := by
        intro block member
        rcases exists_of_mem_left (mapM_eq_ok.mp tested) member with ⟨isQuarter, isListed, answer⟩
        cases isQuarter with
        | false => exact answer
        | true => simp [isListed] at present
      rw [absorbQuarters_eq_self none]
      rfl

theorem exists_litinski_of_measured (fits : ∀ block ∈ circuit.blocks, block.Fits width)
    (measured : circuit.hasMeasurement = true) :
    ∃ transformed, circuit.litinski = .ok transformed := by
  rcases exists_absorbQuarters_of_fits fits with ⟨absorbed, computed, _⟩
  rw [litinski_of_measured fits measured, computed]
  exact ⟨_, rfl⟩

theorem hasMeasurement_yFree (circuit : Circuit) :
    circuit.yFree.hasMeasurement = circuit.hasMeasurement := by
  have each (block : Block) : block.yFree.any Block.isMeasurement = block.isMeasurement := by
    have count := (@Block.agreeUpTo_yFree block.width block rfl).measurementCount_eq
    have found : (∃ other ∈ block.yFree, other.isMeasurement = true) ↔
        ∃ other ∈ [block], other.isMeasurement = true := by
      rw [← List.countP_pos_iff, ← List.countP_pos_iff, ← Block.measurementCount,
        ← Block.measurementCount, count]
    rw [Bool.eq_iff_iff, List.any_eq_true, found]
    simp
  rw [hasMeasurement, yFree, List.any_flatMap]
  simp only [each]
  rfl

/-- Normalized or not, a measured circuit has the same transform. -/
theorem litinski_yFree (fits : ∀ block ∈ circuit.blocks, block.Fits width)
    (measured : circuit.hasMeasurement = true) : circuit.yFree.litinski = circuit.litinski := by
  rw [litinski_of_measured fits measured,
    litinski_of_measured (fits_yFree fits) ((hasMeasurement_yFree circuit).trans measured), yFree,
    absorbQuarters_flatMap_yFree fits]

private theorem quarterRotations_eq_filter {blocks : List Block}
    (fits : ∀ block ∈ blocks, block.Fits width) :
    Block.quarterRotations blocks = blocks.filter fun block => block.TurnsQuarter := by
  apply List.filter_congr
  intro block member
  rw [(fits block member).regular.isQuarterRotation_eq]

/-- A circuit evolves as its transform followed by the quarter rotations that were taken out,
for all outcomes of the measurements and without a phase. -/
theorem evolution_eq_transformed_append {transformed : Circuit}
    (fits : ∀ block ∈ circuit.blocks, block.Fits width)
    (computed : circuit.litinski = .ok transformed) :
    transformed.qubits = circuit.qubits ∧
      (∀ block ∈ transformed.blocks, block.width = width) ∧
      transformed.measurementCount = circuit.measurementCount ∧
      ∀ outcomes, Block.evolution width circuit.blocks outcomes =
        Block.evolution width
          (transformed.blocks ++ circuit.blocks.filter fun block => block.TurnsQuarter)
          outcomes := by
  have wide : ∀ block ∈ circuit.blocks, block.width = width := fun block member =>
    (fits block member).width
  rcases evolution_of_litinski wide computed with ⟨sameQubits, transformedWide, sameCount, evolves⟩
  refine ⟨sameQubits, transformedWide, sameCount, fun outcomes => ?_⟩
  rw [Block.evolution_append, ← quarterRotations_eq_filter fits]
  exact evolves outcomes _

/-- Two quarter rotations around a rotation about YI, in front of a measurement of -ZX. -/
theorem evolution_eq_transformed_append_interleaved :
    let circuit : Circuit := ⟨2, [.rotation [.X, .Z] .quarter, .rotation [.Y, .I] .eighth,
      .rotation [.Z, .Y] .negQuarter, .measurement [.Z, .X] true]⟩
    circuit.litinski = .ok ⟨2, [.rotation [.Z, .Z] { numer := -1, denom := 8 },
        .measurement [.I, .Z] false]⟩ ∧
      ∀ outcomes, Block.evolution 2 circuit.blocks outcomes =
        Block.evolution 2 [.rotation [.Z, .Z] { numer := -1, denom := 8 },
          .measurement [.I, .Z] false, .rotation [.X, .Z] .quarter,
          .rotation [.Z, .Y] .negQuarter] outcomes := by
  intro circuit
  have fits : ∀ block ∈ circuit.blocks, block.Fits 2 := by decide +kernel
  have computed : circuit.litinski = .ok ⟨2, [.rotation [.Z, .Z] { numer := -1, denom := 8 },
      .measurement [.I, .Z] false]⟩ := by decide +kernel
  have quarters : (circuit.blocks.filter fun block => block.TurnsQuarter) =
      [.rotation [.X, .Z] .quarter, .rotation [.Z, .Y] .negQuarter] := by decide +kernel
  rcases evolution_eq_transformed_append fits computed with ⟨_, _, _, evolves⟩
  rw [quarters] at evolves
  exact ⟨computed, evolves⟩

end Circuit

end LatticeSurgery
