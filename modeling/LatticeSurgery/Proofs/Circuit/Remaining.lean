import LatticeSurgery.Proofs.Circuit.Litinski

namespace LatticeSurgery

open Result

/-! # The blocks that remain

Taking the quarter rotations out of a circuit leaves the other blocks in their order. A block that
remains may have another product and another sign, and nothing else about it changes. -/

namespace PauliString

private theorem commutes_of_forall {left right : PauliString}
    (each : ∀ pair ∈ left.zip right, pair.1.commutes pair.2 = true) :
    left.commutes right = true := by
  have none : anticommutingPositions left right = 0 :=
    List.countP_eq_zero.mpr fun pair member => by rw [each pair member]; exact Bool.false_ne_true
  rw [commutes, none]
  rfl

private theorem commutes_of_isIdentity {left right : PauliString}
    (idle : right.isIdentity = true) : left.commutes right = true := by
  refine commutes_of_forall fun pair member => ?_
  have symbol := List.all_eq_true.mp idle _ (List.of_mem_zip member).2
  rw [of_decide_eq_true symbol]
  cases pair.1 <;> rfl

/-- Strings with the identity as their product are the same. -/
private theorem commutes_of_isIdentity_mul {left right : PauliString}
    (idle : (mul left right).2.isIdentity = true) : left.commutes right = true := by
  refine commutes_of_forall fun pair member => ?_
  have symbol : (Pauli.mul pair.1 pair.2).2 = .I := by
    have product : (Pauli.mul pair.1 pair.2).2 ∈ (mul left right).2 := by
      simp only [mul, ← List.map_uncurry_zip_eq_zipWith, List.map_map]
      exact List.mem_map_of_mem member
    exact of_decide_eq_true (List.all_eq_true.mp idle _ product)
  rcases pair with ⟨first, second⟩
  cases first <;> cases second <;> simp_all [Pauli.mul, Pauli.commutes]

/-- Neither a string that clashes with another nor the product of both is the identity. -/
theorem isIdentity_mul_of_clashing {left right : PauliString}
    (clashing : left.commutes right = false) :
    (mul left right).2.isIdentity = right.isIdentity := by
  have product : (mul left right).2.isIdentity = false := by
    rw [← Bool.not_eq_true]
    intro idle
    rw [commutes_of_isIdentity_mul idle] at clashing
    cases clashing
  have factor : right.isIdentity = false := by
    rw [← Bool.not_eq_true]
    intro idle
    rw [commutes_of_isIdentity idle] at clashing
    cases clashing
  rw [product, factor]

end PauliString

namespace BlockKind.Signed

variable {kind other : BlockKind} {sign : ℂ}

theorem symm (signed : kind.Signed sign other) : other.Signed sign kind := by
  cases signed with
  | kept => exact .kept
  | flipped opposite => exact .flipped opposite.symm

/-- The amount of a rotation stays the same, and it keeps its opposite. -/
theorem exists_rotation {angle : Angle} (signed : Signed (.rotation angle) sign other) :
    ∃ turned : Angle, other = .rotation turned ∧ |turned.value| = |angle.value| ∧
      (angle.Regular → turned.Regular) := by
  cases signed with
  | kept => exact ⟨angle, rfl, rfl, id⟩
  | flipped opposite =>
      cases other with
      | measurement negative => cases opposite
      | rotation turned =>
          have negated : angle.neg = .ok turned := opposite
          refine ⟨turned, rfl, by rw [Angle.value_of_neg negated, abs_neg], fun regular => ?_⟩
          rcases regular.exists_neg with ⟨other, computed, otherRegular⟩
          cases negated.symm.trans computed
          exact otherRegular

end BlockKind.Signed

namespace Block

/-- The angle of a rotation is regular. -/
def TurnsRegular (block : Block) : Prop :=
  ∀ angle, block.kind = .rotation angle → angle.Regular

instance (block : Block) : Decidable block.TurnsRegular :=
  decidable_of_iff (∀ angle ∈ block.angle?, angle.Regular) (by
    rcases block with ⟨symbols, kind⟩
    cases kind <;> simp [TurnsRegular, angle?])

/-- The block is a rotation by a quarter in either direction. -/
def TurnsQuarter (block : Block) : Prop :=
  ∃ angle, block.kind = .rotation angle ∧ |angle.value| = 1 / 4

instance (block : Block) : Decidable block.TurnsQuarter :=
  decidable_of_iff (∃ angle ∈ block.angle?, |angle.value| = 1 / 4) (by
    rcases block with ⟨symbols, kind⟩
    cases kind <;> simp [TurnsQuarter, angle?])

theorem TurnsRegular.isQuarterRotation_eq {block : Block} (regular : block.TurnsRegular) :
    block.isQuarterRotation = .ok (decide block.TurnsQuarter) := by
  rw [isQuarterRotation]
  cases kind : block.kind with
  | measurement negative => simp [TurnsQuarter, kind]
  | rotation angle =>
      dsimp only
      rw [Angle.isQuarter, (regular angle kind).hasMagnitude_eq]
      simp [TurnsQuarter, kind]

theorem TurnsQuarter.isMeasurement_eq {block : Block} (turns : block.TurnsQuarter) :
    block.isMeasurement = false := by
  rcases turns with ⟨angle, kind, _⟩
  simp [isMeasurement, angle?, kind]

structure Fits (width : Nat) (block : Block) : Prop where
  width : block.width = width
  regular : block.TurnsRegular

instance (width : Nat) (block : Block) : Decidable (block.Fits width) :=
  decidable_of_iff (block.width = width ∧ block.TurnsRegular)
    ⟨fun both => ⟨both.1, both.2⟩, fun fits => ⟨fits.width, fits.regular⟩⟩

/-! ## One block -/

/-- The product of a block and its sign may have changed, and nothing else. -/
structure Turned (before after : Block) : Prop where
  width_eq : after.width = before.width
  signed : ∃ sign, before.kind.Signed sign after.kind
  isIdentity_eq : after.isIdentity = before.isIdentity

namespace Turned

variable {before after later : Block}

theorem refl (block : Block) : block.Turned block := ⟨rfl, ⟨1, .kept⟩, rfl⟩

theorem trans (first : before.Turned after) (second : after.Turned later) :
    before.Turned later := by
  rcases first.signed with ⟨firstSign, firstSigned⟩
  rcases second.signed with ⟨secondSign, secondSigned⟩
  exact ⟨second.width_eq.trans first.width_eq, ⟨_, firstSigned.trans secondSigned⟩,
    second.isIdentity_eq.trans first.isIdentity_eq⟩

theorem isMeasurement_eq (turned : before.Turned after) :
    after.isMeasurement = before.isMeasurement := by
  rcases turned.signed with ⟨sign, signed⟩
  exact signed.isMeasurement_eq before.symbols after.symbols

/-- The rotation that a turned rotation comes from. -/
theorem exists_rotation (turned : before.Turned after) {angle : Angle}
    (kind : after.kind = .rotation angle) :
    ∃ original : Angle, before.kind = .rotation original ∧
      |angle.value| = |original.value| ∧ (original.Regular → angle.Regular) := by
  rcases turned.signed with ⟨sign, signed⟩
  -- The original is found backwards, while regularity is passed on forwards.
  have backwards := signed.symm
  rw [kind] at backwards
  rcases backwards.exists_rotation with ⟨original, originalEq, size, _⟩
  rw [originalEq] at signed
  rcases signed.exists_rotation with ⟨again, againEq, _, regular⟩
  rw [kind] at againEq
  cases againEq
  exact ⟨original, originalEq, size.symm, regular⟩

theorem fits {width : Nat} (turned : before.Turned after) (fits : before.Fits width) :
    after.Fits width := by
  refine ⟨turned.width_eq.trans fits.width, fun angle kind => ?_⟩
  rcases turned.exists_rotation kind with ⟨original, originalKind, _, regular⟩
  exact regular (fits.regular original originalKind)

theorem turnsQuarter (turned : before.Turned after) (turns : after.TurnsQuarter) :
    before.TurnsQuarter := by
  rcases turns with ⟨angle, kind, quarter⟩
  rcases turned.exists_rotation kind with ⟨original, originalKind, size, _⟩
  exact ⟨original, originalKind, size ▸ quarter⟩

end Turned

theorem TurnsRegular.exists_flipSign {block : Block} (regular : block.TurnsRegular) :
    ∃ flipped, block.flipSign = .ok flipped := by
  rcases block with ⟨symbols, kind⟩
  cases kind with
  | measurement negative => exact ⟨_, rfl⟩
  | rotation angle =>
      rcases (regular angle rfl).exists_neg with ⟨negated, computed, _⟩
      exact ⟨rotation symbols negated, by simp [flipSign, computed, rotation]⟩

/-- The assertion on the phase is never broken, and a sign can always be flipped. -/
theorem Fits.exists_behindQuarter {width : Nat} {next quarter : Block} (fits : next.Fits width)
    (quarterWidth : quarter.width = width) (angle : Angle) :
    ∃ moved, next.behindQuarter quarter angle = .ok moved ∧ next.Turned moved := by
  cases commuting : quarter.productsCommute next with
  | true =>
      rw [behindQuarter, commuting]
      exact ⟨next, rfl, .refl next⟩
  | false =>
      have sameWidth := quarterWidth.trans fits.width.symm
      have productWidth : (quarter.symbols.mul next.symbols).2.length = next.width := by
        rw [PauliString.length_mul_snd]
        exact min_eq_right sameWidth.ge
      have identity := PauliString.isIdentity_mul_of_clashing commuting
      cases behindQuarter_cases angle sameWidth commuting with
      | inl flips =>
          have regular : TurnsRegular ⟨(quarter.symbols.mul next.symbols).2, next.kind⟩ :=
            fits.regular
          rcases regular.exists_flipSign with ⟨flipped, flippedEq⟩
          rcases flipSign_eq_ok_iff.mp flippedEq with ⟨symbolsEq, opposite⟩
          refine ⟨flipped, flips.trans flippedEq, ?_, ⟨-1, .flipped opposite⟩, ?_⟩
          · rw [Block.width, symbolsEq, productWidth]
          · rw [isIdentity, symbolsEq, identity, isIdentity]
      | inr keeps => exact ⟨_, keeps, productWidth, ⟨1, .kept⟩, identity⟩

/-! ## All blocks -/

/-- The blocks that are not quarter rotations. -/
def remaining (blocks : List Block) : List Block :=
  blocks.filter fun block => !decide block.TurnsQuarter

theorem remaining_cons_of_turnsQuarter {block : Block} (turns : block.TurnsQuarter)
    (rest : List Block) : remaining (block :: rest) = remaining rest :=
  List.filter_cons_of_neg (by simp [turns])

theorem remaining_cons_of_not {block : Block} (turns : ¬ block.TurnsQuarter) (rest : List Block) :
    remaining (block :: rest) = block :: remaining rest :=
  List.filter_cons_of_pos (by simp [turns])

theorem not_turnsQuarter_of_mem_remaining {blocks : List Block} {block : Block}
    (member : block ∈ remaining blocks) : ¬ block.TurnsQuarter := by
  simpa using List.of_mem_filter member

theorem remaining_eq_self {blocks : List Block} (none : ∀ block ∈ blocks, ¬ block.TurnsQuarter) :
    remaining blocks = blocks :=
  List.filter_eq_self.mpr (by simpa using none)

theorem length_remaining (blocks : List Block) :
    (remaining blocks).length + blocks.countP (fun block => decide block.TurnsQuarter) =
      blocks.length := by
  have halves : blocks.length = blocks.countP (fun block => decide block.TurnsQuarter) + _ :=
    List.length_eq_countP_add_countP _
  simp only [decide_eq_true_eq, decide_not] at halves
  rw [halves, remaining, ← List.countP_eq_length_filter, add_comm]

end Block

namespace Circuit

open Block (Turned remaining)

variable {width : Nat}

theorem fits_of_turned {blocks absorbed : List Block} (fits : ∀ block ∈ blocks, block.Fits width)
    (turned : List.Forall₂ Turned (remaining blocks) absorbed) :
    ∀ block ∈ absorbed, block.Fits width := by
  intro block member
  rcases exists_of_mem_right turned member with ⟨original, listed, blockTurned⟩
  exact blockTurned.fits (fits original (List.mem_of_mem_filter listed))

/-- The quarter rotations among fitting blocks can always be taken out, and the other blocks
remain. -/
theorem exists_absorbQuarters {blocks : List Block} (fits : ∀ block ∈ blocks, block.Fits width) :
    ∃ absorbed, absorbQuarters blocks = .ok absorbed ∧
      List.Forall₂ Turned (remaining blocks) absorbed := by
  induction blocks with
  | nil => exact ⟨[], rfl, .nil⟩
  | cons block rest induction =>
      rw [List.forall_mem_cons] at fits
      -- The last quarter rotation moves first, so a quarter rotation only meets turned blocks.
      rcases induction fits.2 with ⟨absorbed, computed, turned⟩
      have tested := fits.1.regular.isQuarterRotation_eq
      by_cases turns : block.TurnsQuarter
      · rw [decide_eq_true turns] at tested
        rcases Block.exists_angle_of_isQuarterRotation tested with ⟨angle, kind, isQuarter⟩
        rw [absorbQuarters_move kind isQuarter, computed, ok_bind,
          Block.remaining_cons_of_turnsQuarter turns]
        have each : ∀ next ∈ absorbed, ∃ moved, next.behindQuarter block angle = .ok moved ∧
            next.Turned moved := fun next member =>
          (fits_of_turned fits.2 turned next member).exists_behindQuarter fits.1.width angle
        rcases exists_mapM each with ⟨moved, movedEq, turnedAgain⟩
        exact ⟨moved, movedEq, forall₂_trans .trans turned turnedAgain⟩
      · rw [decide_eq_false turns] at tested
        rw [absorbQuarters_keep tested, computed, Block.remaining_cons_of_not turns]
        exact ⟨_, rfl, .cons (.refl block) turned⟩

/-- What becomes of a circuit of fitting blocks in place. -/
theorem run_absorbAll_cases {circuit : Circuit}
    (fits : ∀ block ∈ circuit.blocks, block.Fits width) :
    (∀ block ∈ circuit.blocks, ¬ block.TurnsQuarter) ∧ absorbAll.run circuit = .ok () circuit ∨
    (∃ block ∈ circuit.blocks, block.TurnsQuarter) ∧
      (circuit.hasMeasurement = false ∧
          absorbAll.run circuit = .error (.refused .missingMeasurement) circuit ∨
        circuit.hasMeasurement = true ∧ ∃ absorbed,
          absorbAll.run circuit = .ok () { circuit with blocks := absorbed } ∧
          List.Forall₂ Turned (remaining circuit.blocks) absorbed) := by
  have tested : circuit.blocks.mapM Block.isQuarterRotation =
      .ok (circuit.blocks.map fun block => decide block.TurnsQuarter) :=
    mapM_eq_map fun block member => (fits block member).regular.isQuarterRotation_eq
  by_cases present : ∃ block ∈ circuit.blocks, block.TurnsQuarter
  · refine .inr ⟨present, ?_⟩
    cases measured : circuit.hasMeasurement with
    | false =>
        refine .inl ⟨rfl, ?_⟩
        simp [absorbAll, tested, present, measured]
    | true =>
        rcases exists_absorbQuarters fits with ⟨absorbed, computed, turned⟩
        have transformed : circuit.litinski = .ok { circuit with blocks := absorbed } := by
          simp [litinski_eq, tested, present, measured, computed]
        exact .inr ⟨rfl, absorbed, Update.result_eq_ok.mp transformed, turned⟩
  · refine .inl ⟨by simpa using present, ?_⟩
    simp [absorbAll, tested, present]

/-- A circuit from which the quarter rotations have been taken out. Doing so again changes
nothing. -/
structure Absorbed (circuit after : Circuit) : Prop where
  qubits_eq : after.qubits = circuit.qubits
  length_eq : after.blocks.length = circuit.blocks.length -
    circuit.blocks.countP fun block => decide block.TurnsQuarter
  turned : List.Forall₂ Turned (remaining circuit.blocks) after.blocks
  none : ∀ block ∈ after.blocks, ¬ block.TurnsQuarter
  again : absorbAll.run after = .ok () after

theorem absorbed_of_turned {circuit after : Circuit}
    (fits : ∀ block ∈ circuit.blocks, block.Fits width) (qubits : after.qubits = circuit.qubits)
    (turned : List.Forall₂ Turned (remaining circuit.blocks) after.blocks) :
    circuit.Absorbed after := by
  have count := Block.length_remaining circuit.blocks
  have none : ∀ block ∈ after.blocks, ¬ block.TurnsQuarter := by
    intro block member turns
    rcases exists_of_mem_right turned member with ⟨original, listed, blockTurned⟩
    exact Block.not_turnsQuarter_of_mem_remaining listed (blockTurned.turnsQuarter turns)
  refine ⟨qubits, by rw [← turned.length_eq]; omega, turned, none, ?_⟩
  cases run_absorbAll_cases (fits_of_turned fits turned) with
  | inl unchanged => exact unchanged.2
  | inr changed =>
      rcases changed.1 with ⟨block, member, turns⟩
      exact absurd turns (none block member)

/-- The transform fails exactly for a circuit with quarter rotations and without measurements, and
then the circuit stays as it was. Otherwise the blocks remain that are no quarter rotations. -/
theorem run_absorbAll_of_fits {circuit : Circuit}
    (fits : ∀ block ∈ circuit.blocks, block.Fits width) :
    ((∃ failure left, absorbAll.run circuit = .error failure left) ↔
      (∃ block ∈ circuit.blocks, block.TurnsQuarter) ∧ circuit.hasMeasurement = false) ∧
    (∀ failure left, absorbAll.run circuit = .error failure left →
      failure = .refused .missingMeasurement ∧ left = circuit) ∧
    ∀ after, absorbAll.run circuit = .ok () after → circuit.Absorbed after := by
  rcases run_absorbAll_cases fits with
    ⟨none, run⟩ | ⟨present, ⟨unmeasured, run⟩ | ⟨measured, absorbed, run, turned⟩⟩
  · have unchanged : circuit.Absorbed circuit := by
      apply absorbed_of_turned fits rfl
      rw [Block.remaining_eq_self none, List.forall₂_same]
      exact fun block _ => .refl block
    have absent : ¬ ∃ block ∈ circuit.blocks, block.TurnsQuarter := by simpa using none
    simpa [run, absent] using unchanged
  · simp [run, present, unmeasured]
  · have changed : circuit.Absorbed { circuit with blocks := absorbed } :=
      absorbed_of_turned fits rfl turned
    simpa [run, measured] using changed

theorem absorbed_negQuarter_quarter :
    absorbAll.run ⟨2, [.rotation [.X, .I] .negQuarter, .rotation [.Z, .Z] .eighth,
        .measurement [.Z, .X] false, .rotation [.Y, .Y] .quarter]⟩ =
      .ok () ⟨2, [.rotation [.Y, .Z] { numer := -1, denom := 8 }, .measurement [.Y, .X] true]⟩ ∧
    Absorbed ⟨2, [.rotation [.X, .I] .negQuarter, .rotation [.Z, .Z] .eighth,
        .measurement [.Z, .X] false, .rotation [.Y, .Y] .quarter]⟩
      ⟨2, [.rotation [.Y, .Z] { numer := -1, denom := 8 }, .measurement [.Y, .X] true]⟩ := by
  have fits : ∀ block ∈ [Block.rotation [.X, .I] .negQuarter, .rotation [.Z, .Z] .eighth,
      .measurement [.Z, .X] false, .rotation [.Y, .Y] .quarter], block.Fits 2 := by decide
  exact ⟨rfl, (run_absorbAll_of_fits fits).2.2 _ rfl⟩

end Circuit

end LatticeSurgery
