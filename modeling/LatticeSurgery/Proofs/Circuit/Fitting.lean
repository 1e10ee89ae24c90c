import LatticeSurgery.Proofs.Circuit.Preparation

namespace LatticeSurgery

open Result

/-! # Blocks that fit their circuit

A block fits a circuit when it has the width of the circuit and its angle has an opposite.
Every operation on circuits keeps the blocks fitting. None of them faults on fitting blocks,
unless the symbols of a new block cannot be stored or an approximator faults. -/

variable {May : Fault → Prop}

/-- Tables have an answer for every regular angle. -/
theorem ApproximationTable.exists_approximator (table : ApproximationTable) {angle : Angle}
    (regular : angle.Regular) : ∃ answer, table.approximator angle = .ok answer := by
  rcases Angle.exists_normalized regular.denom_pos with ⟨key, keyEq⟩
  rw [approximator, lookup, keyEq, ok_bind]
  exact ⟨_, rfl⟩

namespace Block

theorem identityRotation_eq (width : Nat) (angle : Angle) :
    identityRotation width angle =
      if (width : Int) < Word.limit64 then .ok (rotation (PauliString.identity width) angle)
      else .error .storage := by
  have fits : Word.Fits64 (Int.ofNat (width * Storage.symbolSize)) ↔
      (width : Int) < Word.limit64 := by
    have limit : Word.limit64 = 9223372036854775808 := rfl
    simp only [Word.Fits64, Storage.symbolSize, mul_one, Int.ofNat_eq_natCast]
    omega
  rw [identityRotation, identitySymbols, Storage.reserve]
  simp only [fits]
  split <;> rfl

namespace Fits

variable {width : Nat} {block : Block}

theorem rotation {symbols : PauliString} {angle : Angle} (length : symbols.length = width)
    (regular : angle.Regular) : (Block.rotation symbols angle).Fits width := by
  refine ⟨length, fun other kind => ?_⟩
  cases kind
  exact regular

theorem withSymbols (fits : block.Fits width) {symbols : PauliString}
    (length : symbols.length = width) : Fits width { block with symbols := symbols } :=
  ⟨length, fits.regular⟩

theorem exists_isQuarterRotation (fits : block.Fits width) :
    ∃ answer, block.isQuarterRotation = .ok answer :=
  ⟨_, fits.regular.isQuarterRotation_eq⟩

theorem of_mem_yFree (fits : block.Fits width) {member : Block} (emitted : member ∈ yFree block) :
    member.Fits width := by
  rcases exists_mirrored_yFree block.symbols with ⟨before, after, mirrored, _, surrounds⟩
  rw [surrounds block.kind, List.perm_middle.mem_iff, List.mem_cons] at emitted
  rcases emitted with rfl | emitted
  · exact fits.withSymbols ((List.length_map _).trans fits.width)
  · rcases (mirrored.aboutZ member emitted).isBasic with ⟨symbols, angle, rfl, length, basic⟩
    exact .rotation (length.trans fits.width) (Angle.isBasic_eq_ok_true.mp basic).1

theorem of_mem_gateRotations {qubit : Nat} {axis : Pauli} {gates : GateSequence} {member : Block}
    (emitted : member ∈ gateRotations width qubit axis gates) : member.Fits width := by
  rcases List.mem_flatMap.mp emitted with ⟨gate, _, emitted⟩
  rcases List.mem_map.mp emitted with ⟨⟨symbol, amount⟩, listed, rfl⟩
  apply Fits.rotation
  · exact PauliString.length_set_identity _ _ _
  · exact (Angle.isBasic_eq_ok_true.mp (isBasic_of_mem_rotations listed)).1

end Fits

section BasicForm

variable {width : Nat} {approximator : Approximator}
  (asks : ∀ angle : Angle, angle.Regular → ∀ cause, approximator angle = .error cause → May cause)

include asks

theorem ends_approximate {symbols : PauliString} (length : symbols.length = width)
    {angle : Angle} (regular : angle.Regular) :
    Ends May (fun blocks => ∀ block ∈ blocks, Fits width block)
      (approximate approximator symbols angle) := by
  rw [approximate]
  split
  · exact .refused _
  · cases answered : approximator angle with
    | error cause => exact .fault (asks angle regular cause answered)
    | ok answer =>
        rw [liftM_eq_ofFaulty, ofFaulty_ok, ok_bind]
        cases answer with
        | none => exact .refused _
        | some gates =>
            apply Ends.ok
            intro block emitted
            rw [← length]
            exact .of_mem_gateRotations emitted

theorem ends_basicTerm {symbols : PauliString} (length : symbols.length = width)
    {term : Angle} (regular : term.Regular) :
    Ends May (fun blocks => ∀ block ∈ blocks, Fits width block)
      (basicTerm approximator symbols term) := by
  rw [basicTerm]
  split
  · exact .ok (List.forall_mem_singleton.mpr (.rotation length regular))
  · exact ends_approximate asks length regular

theorem ends_basicForm {block : Block} (fits : block.Fits width) :
    Ends May (fun blocks => ∀ block ∈ blocks, Fits width block)
      (basicForm approximator block) := by
  rw [basicForm]
  cases kind : block.kind with
  | measurement negative => exact .ok (List.forall_mem_singleton.mpr fits)
  | rotation angle =>
      have regular := fits.regular angle kind
      rcases Angle.exists_dyadicTerms regular.denom_pos with ⟨split, splitEq⟩
      simp only [regular.isBasic_eq, splitEq, liftM_eq_ofFaulty, ofFaulty_ok, ok_bind]
      by_cases basic : angle.IsBasic
      · rw [if_pos (decide_eq_true basic)]
        exact .ok (List.forall_mem_singleton.mpr fits)
      · rw [if_neg (by simpa using basic)]
        cases split with
        | none => exact ends_approximate asks fits.width regular
        | some terms =>
            have each : ∀ term ∈ terms, Ends May (fun blocks => ∀ block ∈ blocks, Fits width block)
                (basicTerm approximator block.symbols term) := fun term member =>
              ends_basicTerm asks fits.width
                (Angle.regular_of_mem_dyadicTerms splitEq member)
            apply (Ends.mapM each).bind
            intro parts partsFit
            exact .ok (List.forall_mem_flatten.mpr partsFit)

end BasicForm

end Block

namespace Circuit

/-- A circuit on a number of qubits whose blocks fit. -/
structure Sound (qubits : Nat) (circuit : Circuit) : Prop where
  qubits_eq : circuit.qubits = qubits
  fits : ∀ block ∈ circuit.blocks, block.Fits qubits

variable {qubits : Nat} {circuit : Circuit}

theorem sound_empty (qubits : Nat) : (empty qubits).Sound qubits :=
  ⟨rfl, List.forall_mem_nil _⟩

theorem run_addRotation_of_large (large : Word.limit64 ≤ circuit.qubits) (qubit : Nat)
    (symbol : Pauli) (angle : Angle) :
    (addRotation qubit symbol angle).run circuit = .error (.fault .storage) circuit := by
  have refused : Block.identityRotation circuit.qubits angle = .error .storage := by
    rw [Block.identityRotation_eq, if_neg (not_lt.mpr large)]
  rw [addRotation, EStateM.run_bind, EStateM.run_get]
  dsimp only
  rw [refused]
  rfl

namespace Sound

theorem self (sound : circuit.Sound qubits) : circuit.Sound circuit.qubits := by
  rw [sound.qubits_eq]
  exact sound

theorem uniform (sound : circuit.Sound qubits) : circuit.Uniform := by
  intro block member
  rw [sound.qubits_eq]
  exact (sound.fits block member).width

/-! ## Edits -/

theorem atomic_push (sound : circuit.Sound qubits) {block : Block} (fits : block.Fits qubits) :
    Update.Atomic May (Sound qubits) (push block) circuit := by
  refine .ok rfl ⟨sound.qubits_eq, fun other member => ?_⟩
  rcases List.mem_append.mp member with old | new
  · exact sound.fits other old
  · rw [List.mem_singleton.mp new]
    exact fits

theorem ends_checkWidth (sound : circuit.Sound qubits) {block : Block}
    (regular : block.TurnsRegular) (during : WidthCheck) :
    Ends May (fun _ => block.Fits qubits) (circuit.checkWidth block during) := by
  rw [checkWidth]
  split
  · next sameWidth => exact .ok ⟨sameWidth.trans sound.qubits_eq, regular⟩
  · exact .refused _

theorem atomic_addBlock (sound : circuit.Sound qubits) {block : Block}
    (regular : block.TurnsRegular) : Update.Atomic May (Sound qubits) (addBlock block) circuit := by
  apply Update.Atomic.get_bind
  apply Update.Atomic.lift_bind (sound.ends_checkWidth regular .append)
  intro _ fits
  exact sound.atomic_push fits

theorem atomic_insertBlock (sound : circuit.Sound qubits) (index : Nat) {block : Block}
    (regular : block.TurnsRegular) :
    Update.Atomic May (Sound qubits) (insertBlock index block) circuit := by
  apply Update.Atomic.get_bind
  apply Update.Atomic.lift_bind (sound.ends_checkWidth regular .insertion)
  intro _ fits
  split
  · next inside =>
      refine .ok rfl ⟨sound.qubits_eq, fun other member => ?_⟩
      rcases (List.mem_insertIdx inside).mp member with rfl | old
      · exact fits
      · exact sound.fits other old
  · exact .refused rfl

theorem atomic_addRotation (sound : circuit.Sound qubits)
    (large : Word.limit64 ≤ circuit.qubits → May .storage) (qubit : Nat) (symbol : Pauli)
    {angle : Angle} (regular : angle.Regular) :
    Update.Atomic May (Sound qubits) (addRotation qubit symbol angle) circuit := by
  apply Update.Atomic.get_bind
  have made : Ends May (Block.Fits qubits)
      (ofFaulty (Block.identityRotation circuit.qubits angle) : Result CircuitError Block) := by
    rw [Block.identityRotation_eq]
    split
    · rw [sound.qubits_eq]
      exact .ok (.rotation List.length_replicate regular)
    · next tooLarge => exact .fault (large (not_lt.mp tooLarge))
  apply Update.Atomic.lift_bind made
  intro identity identityFits
  have set : Ends May (Block.Fits qubits) (identity.setSymbol qubit symbol) := by
    rw [Block.setSymbol]
    split
    · exact .ok (identityFits.withSymbols (List.length_set.trans identityFits.width))
    · exact .refused _
  apply Update.Atomic.lift_bind set
  intro block fits
  exact sound.atomic_push fits

theorem ends_blockAt (sound : circuit.Sound qubits) (index : Nat) :
    Ends May (Block.Fits qubits) (circuit.blockAt index) := by
  rw [blockAt]
  cases found : circuit.blocks[index]? with
  | none => exact .refused _
  | some block => exact .ok (sound.fits block (List.mem_of_getElem? found))

theorem ends_quarterAt (sound : circuit.Sound qubits) (index : Nat) :
    Ends May (fun found => found.1.Fits qubits) (circuit.quarterAt index) := by
  apply (sound.ends_blockAt index).bind
  intro block fits
  cases kind : block.kind with
  | measurement negative => exact .refused _
  | rotation angle =>
      have regular := fits.regular angle kind
      simp only [Angle.isQuarter, regular.hasMagnitude_eq, liftM_eq_ofFaulty, ofFaulty_ok, ok_bind]
      split
      · exact .ok fits
      · exact .refused _

theorem atomic_swapQuarter (sound : circuit.Sound qubits) (index : Nat) :
    Update.Atomic May (Sound qubits) (swapQuarter index) circuit := by
  apply Update.Atomic.get_bind
  apply Update.Atomic.lift_bind (sound.ends_quarterAt index)
  intro found quarterFits
  apply Update.Atomic.lift_bind (sound.ends_blockAt (index + 1))
  intro next nextFits
  rcases nextFits.exists_behindQuarter quarterFits.width found.2 with ⟨moved, movedEq, turned⟩
  rw [movedEq]
  refine .ok rfl ⟨sound.qubits_eq, fun other member => ?_⟩
  rcases List.mem_or_eq_of_mem_set member with member | rfl
  · rcases List.mem_or_eq_of_mem_set member with old | rfl
    · exact sound.fits other old
    · exact turned.fits nextFits
  · exact quarterFits

end Sound

/-- The quarter rotations among fitting blocks can always be taken out. -/
theorem exists_absorbQuarters_of_fits {blocks : List Block}
    (fits : ∀ block ∈ blocks, block.Fits qubits) :
    ∃ absorbed, absorbQuarters blocks = .ok absorbed ∧ ∀ block ∈ absorbed, block.Fits qubits := by
  rcases exists_absorbQuarters fits with ⟨absorbed, computed, turned⟩
  exact ⟨absorbed, computed, fits_of_turned fits turned⟩

/-- The loop of the Litinski transform never stops half way. -/
theorem atomic_absorbAll {width : Nat} (fits : ∀ block ∈ circuit.blocks, block.Fits width) :
    Update.Atomic May (fun after => after.qubits = circuit.qubits ∧
      ∀ block ∈ after.blocks, block.Fits width) absorbAll circuit := by
  rcases run_absorbAll_cases fits with ⟨_, run⟩ | ⟨_, ⟨_, run⟩ | ⟨_, absorbed, run, turned⟩⟩
  · exact .ok run ⟨rfl, fits⟩
  · exact .refused run
  · exact .ok run ⟨rfl, fits_of_turned fits turned⟩

theorem Sound.atomic_absorbAll (sound : circuit.Sound qubits) :
    Update.Atomic May (Sound qubits) absorbAll circuit :=
  (Circuit.atomic_absorbAll sound.fits).imp fun _ after =>
    ⟨after.1.trans sound.qubits_eq, after.2⟩

/-! ## New circuits -/

theorem ends_ofBlocks {blocks : List Block}
    (regular : ∀ block ∈ blocks, block.TurnsRegular) :
    Ends May (Sound qubits) (ofBlocks qubits blocks) := by
  apply Ends.foldlM _ (sound_empty qubits)
  intro before block member sound
  exact (sound.atomic_addBlock (regular block member)).ends

theorem Sound.ends_extend {next : Circuit} (sound : circuit.Sound qubits)
    (nextSound : next.Sound next.qubits) : Ends May (Sound qubits) (circuit.extend next) := by
  rw [extend]
  split
  · next sameQubits =>
      apply Ends.ok
      refine ⟨sound.qubits_eq, fun block member => ?_⟩
      rcases List.mem_append.mp member with old | new
      · exact sound.fits block old
      · rw [← sound.qubits_eq, ← sameQubits]
        exact nextSound.fits block new
  · exact .refused _

theorem ends_join {circuits : List Circuit}
    (sound : ∀ circuit ∈ circuits, circuit.Sound circuit.qubits) :
    Ends May (fun joined => joined.Sound joined.qubits) (join circuits) := by
  cases circuits with
  | nil => exact .refused _
  | cons first rest =>
      have each : ∀ joined : Circuit, ∀ next ∈ first :: rest, joined.Sound first.qubits →
          Ends May (Sound first.qubits) (joined.extend next) := fun joined next member before =>
        before.ends_extend (sound next member)
      exact (Ends.foldlM each (sound_empty first.qubits)).imp fun _ joined => joined.self

theorem checkedYFree_eq (circuit : Circuit) : circuit.checkedYFree = .ok circuit.yFree := by
  have each : circuit.blocks.mapM Block.checkedYFree = .ok (circuit.blocks.map Block.yFree) :=
    mapM_eq_map fun block _ => block.checkedYFree_eq
  rw [checkedYFree, each]
  rfl

theorem fits_yFree {width : Nat} (fits : ∀ block ∈ circuit.blocks, block.Fits width) :
    ∀ block ∈ circuit.yFree.blocks, block.Fits width := by
  intro block member
  rcases List.mem_flatMap.mp member with ⟨source, sourceMember, emitted⟩
  exact (fits source sourceMember).of_mem_yFree emitted

theorem Sound.yFree (sound : circuit.Sound qubits) : circuit.yFree.Sound qubits :=
  ⟨sound.qubits_eq, fits_yFree sound.fits⟩

theorem ends_basicForm {width : Nat} (fits : ∀ block ∈ circuit.blocks, block.Fits width)
    {approximator : Approximator}
    (asks : ∀ angle : Angle, angle.Regular → ∀ cause, approximator angle = .error cause →
      May cause) :
    Ends May (fun basic => basic.qubits = circuit.qubits ∧
      ∀ block ∈ basic.blocks, block.Fits width) (circuit.basicForm approximator) := by
  have each := Ends.mapM fun block member => Block.ends_basicForm asks (fits block member)
  apply each.bind
  intro parts partsFit
  exact .ok ⟨rfl, List.forall_mem_flatten.mpr partsFit⟩

theorem Sound.ends_basicForm (sound : circuit.Sound qubits) {approximator : Approximator}
    (asks : ∀ angle : Angle, angle.Regular → ∀ cause, approximator angle = .error cause →
      May cause) : Ends May (Sound qubits) (circuit.basicForm approximator) :=
  (Circuit.ends_basicForm sound.fits asks).imp fun _ basic =>
    ⟨basic.1.trans sound.qubits_eq, basic.2⟩

end Circuit

end LatticeSurgery
