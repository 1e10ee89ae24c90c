import LatticeSurgery.Proofs.Angle.Dyadic
import LatticeSurgery.Proofs.Circuit.Conjugation
import LatticeSurgery.Proofs.Circuit.Ready
import LatticeSurgery.Proofs.Circuit.Remaining

namespace LatticeSurgery

open Result

/-! # Preparing circuits

The transformations of a circuit leave basic rotations behind. They keep its measurements in
their order, and a measurement becomes one of the identity only if it was one before. -/

namespace Block

/-- The block is a measurement or a basic rotation. -/
def TurnsBasic (block : Block) : Prop :=
  ∀ angle, block.kind = .rotation angle → angle.isBasic = .ok true

/-- The measurements of a sequence in their order, as whether they are of the identity. -/
def idleReadings (blocks : List Block) : List Bool :=
  (blocks.filter isMeasurement).map isIdentity

theorem idleReadings_append (first second : List Block) :
    idleReadings (first ++ second) = idleReadings first ++ idleReadings second := by
  rw [idleReadings, List.filter_append, List.map_append]
  rfl

theorem idleReadings_eq_nil_iff {blocks : List Block} :
    idleReadings blocks = [] ↔ blocks.any isMeasurement = false := by
  rw [idleReadings, List.map_eq_nil_iff, List.filter_eq_nil_iff, List.any_eq_false]

theorem true_not_mem_idleReadings {blocks : List Block} :
    true ∉ idleReadings blocks ↔
      ∀ block ∈ blocks, block.isMeasurement = true → block.isIdentity = false := by
  simp only [idleReadings, List.mem_map, List.mem_filter, not_exists, not_and, and_imp,
    Bool.not_eq_true]

/-- The blocks take the place of others in a circuit of a given width. -/
structure Prepared (width : Nat) (blocks original : List Block) : Prop where
  width : ∀ block ∈ blocks, block.width = width
  turnsBasic : ∀ block ∈ blocks, block.TurnsBasic
  idleReadings : idleReadings blocks = idleReadings original

namespace Prepared

variable {width : Nat} {blocks original : List Block}

theorem nil : Prepared width [] [] :=
  ⟨List.forall_mem_nil _, List.forall_mem_nil _, rfl⟩

theorem append {others otherOriginal : List Block} (prepared : Prepared width blocks original)
    (othersPrepared : Prepared width others otherOriginal) :
    Prepared width (blocks ++ others) (original ++ otherOriginal) where
  width block member := (List.mem_append.mp member).elim (prepared.width block)
    (othersPrepared.width block)
  turnsBasic block member := (List.mem_append.mp member).elim (prepared.turnsBasic block)
    (othersPrepared.turnsBasic block)
  idleReadings := by
    rw [idleReadings_append, idleReadings_append, prepared.idleReadings,
      othersPrepared.idleReadings]

theorem trans {later : List Block} (prepared : Prepared width blocks original)
    (laterPrepared : Prepared width later blocks) : Prepared width later original :=
  ⟨laterPrepared.width, laterPrepared.turnsBasic,
    laterPrepared.idleReadings.trans prepared.idleReadings⟩

/-- Rotations are not read out. -/
theorem skip (prepared : Prepared width blocks original) {block : Block}
    (turns : block.isMeasurement = false) : Prepared width blocks (block :: original) := by
  refine ⟨prepared.width, prepared.turnsBasic, ?_⟩
  rw [prepared.idleReadings, Block.idleReadings, Block.idleReadings,
    List.filter_cons_of_neg (by simp [turns])]

theorem single {block other : Block} (wide : block.width = width) (basic : block.TurnsBasic)
    (sameKind : block.isMeasurement = other.isMeasurement)
    (sameProduct : block.isIdentity = other.isIdentity) : Prepared width [block] [other] := by
  refine ⟨by simpa using wide, by simpa using basic, ?_⟩
  rw [Block.idleReadings, Block.idleReadings, List.filter_singleton, List.filter_singleton,
    sameKind]
  cases other.isMeasurement
  · rfl
  · exact congrArg (fun idle => [idle]) sameProduct

theorem any_isMeasurement (prepared : Prepared width blocks original) :
    blocks.any isMeasurement = original.any isMeasurement := by
  have none : blocks.any isMeasurement = false ↔ original.any isMeasurement = false := by
    rw [← idleReadings_eq_nil_iff, ← idleReadings_eq_nil_iff, prepared.idleReadings]
  exact Bool.eq_iff_iff.mpr (by rw [← not_iff_not, Bool.not_eq_true, Bool.not_eq_true, none])

/-- Prepared blocks without Y are ready, unless a measurement was of the identity before. -/
theorem ready_iff (prepared : Prepared width blocks original)
    (withoutY : ∀ block ∈ blocks, block.containsY = false) :
    (∀ block ∈ blocks, block.Ready) ↔
      ∀ block ∈ original, block.isMeasurement = true → block.isIdentity = false := by
  rw [← true_not_mem_idleReadings, ← prepared.idleReadings, true_not_mem_idleReadings]
  constructor
  · exact fun ready block member => (ready block member).measures
  · intro measures block member
    exact ⟨withoutY block member, measures block member, fun angle kind _ =>
      prepared.turnsBasic block member angle kind⟩

/-- Every block is replaced by a part of its own. -/
theorem flatten {parts : List (List Block)}
    (replaced : List.Forall₂ (fun block part => Prepared width part [block]) blocks parts) :
    Prepared width parts.flatten blocks := by
  induction replaced with
  | nil => exact nil
  | cons head _ induction => exact head.append induction

theorem map {replacements : List Block}
    (replaced : List.Forall₂ (fun block other => Prepared width [other] [block]) blocks
      replacements) : Prepared width replacements blocks := by
  have flat : Prepared width (replacements.map fun block => [block]).flatten blocks :=
    flatten (List.forall₂_map_right_iff.mpr replaced)
  rwa [← List.flatMap, List.flatMap_singleton'] at flat

theorem flatten_rotations {parts : List (List Block)}
    (each : ∀ part ∈ parts, Prepared width part []) : Prepared width parts.flatten [] := by
  induction parts with
  | nil => exact nil
  | cons part rest induction =>
      exact (each part List.mem_cons_self).append
        (induction fun other member => each other (.tail _ member))

theorem rotations {rotated : List Block}
    (each : ∀ block ∈ rotated, ∃ symbols angle, block = rotation symbols angle ∧
      symbols.length = width ∧ angle.isBasic = .ok true) : Prepared width rotated [] := by
  refine ⟨fun block member => ?_, fun block member angle kind => ?_, ?_⟩
  · rcases each block member with ⟨symbols, angle, rfl, wide, _⟩
    exact wide
  · rcases each block member with ⟨symbols, other, rfl, _, basic⟩
    cases kind
    exact basic
  · have none : rotated.filter isMeasurement = [] := by
      refine List.filter_eq_nil_iff.mpr fun block member measures => ?_
      rcases each block member with ⟨symbols, angle, rfl, _⟩
      cases measures
    rw [Block.idleReadings, none]
    rfl

end Prepared

/-! ## Basic form -/

theorem isBasic_of_mem_rotations {gate : Gate} {axis : Pauli} {entry : Pauli × Angle}
    (member : entry ∈ gate.rotations axis) : entry.2.isBasic = .ok true := by
  cases gate <;> simp only [Gate.rotations, List.mem_cons, List.not_mem_nil, or_false] at member
  case S => exact member ▸ Angle.isBasic_quarter
  case T => exact member ▸ Angle.isBasic_eighth
  case X => exact member ▸ Angle.isBasic_half
  case H => rcases member with rfl | rfl | rfl <;> exact Angle.isBasic_quarter

private theorem prepared_approximate {approximator : Approximator} {symbols : PauliString}
    {angle : Angle} {blocks : List Block}
    (computed : approximate approximator symbols angle = .ok blocks) :
    Prepared symbols.length blocks [] := by
  rw [approximate] at computed
  split at computed
  · exact absurd computed (refuse_ne_ok _ _)
  · next qubit axis _ =>
      rcases bind_eq_ok.mp computed with ⟨sequence, _, computed⟩
      cases sequence with
      | none => exact absurd computed (refuse_ne_ok _ _)
      | some gates =>
          cases computed
          refine .rotations fun block member => ?_
          rcases List.mem_flatMap.mp member with ⟨gate, _, member⟩
          rcases List.mem_map.mp member with ⟨⟨symbol, amount⟩, listed, rfl⟩
          exact ⟨_, amount, rfl, PauliString.length_set_identity _ _ _,
            isBasic_of_mem_rotations listed⟩

private theorem prepared_basicTerm {approximator : Approximator} {symbols : PauliString}
    {term : Angle} {blocks : List Block} (coarse : term.denom ≤ 8 → term.isBasic = .ok true)
    (computed : basicTerm approximator symbols term = .ok blocks) :
    Prepared symbols.length blocks [] := by
  rw [basicTerm] at computed
  split at computed
  · next few =>
      cases computed
      refine .rotations fun block member => ?_
      exact ⟨symbols, term, List.mem_singleton.mp member, rfl, coarse few⟩
  · exact prepared_approximate computed

/-- The basic form of a block takes its place. -/
theorem prepared_basicForm {approximator : Approximator} {block : Block} {blocks : List Block}
    (computed : block.basicForm approximator = .ok blocks) :
    Prepared block.width blocks [block] := by
  rcases block with ⟨symbols, kind⟩
  rw [basicForm] at computed
  cases kind with
  | measurement negative =>
      cases computed
      exact .single rfl (fun angle kind => nomatch kind) rfl rfl
  | rotation angle =>
      rcases bind_eq_ok.mp computed with ⟨isBasic, basic, computed⟩
      rw [liftM_eq_ofFaulty, ofFaulty_eq_ok_iff] at basic
      cases isBasic with
      | true =>
          cases computed
          refine .single rfl (fun other kind => ?_) rfl rfl
          cases kind
          exact basic
      | false =>
          refine Prepared.skip ?_ rfl
          rw [if_neg Bool.false_ne_true] at computed
          rcases bind_eq_ok.mp computed with ⟨split, dyadic, computed⟩
          rw [liftM_eq_ofFaulty, ofFaulty_eq_ok_iff] at dyadic
          cases split with
          | none => exact prepared_approximate computed
          | some terms =>
              rcases bind_eq_ok.mp computed with ⟨parts, partsEq, blocksEq⟩
              cases blocksEq
              refine .flatten_rotations fun part member => ?_
              rcases exists_of_mem_right (mapM_eq_ok.mp partsEq) member with ⟨term, listed, partEq⟩
              exact prepared_basicTerm (Angle.isBasic_of_mem_dyadicTerms dyadic listed) partEq

/-! ## Replacing Y -/

theorem TurnsAboutZ.isBasic {width : Nat} {block : Block} (turns : block.TurnsAboutZ width) :
    ∃ symbols angle, block = rotation symbols angle ∧ symbols.length = width ∧
      angle.isBasic = .ok true := by
  have turned {angle : Angle} (kind : block.kind = .rotation angle) :
      block = rotation block.symbols angle := by
    rw [rotation, ← kind]
  cases turns.kind with
  | inl forwards =>
      exact ⟨block.symbols, _, turned forwards, turns.width_eq, Angle.isBasic_quarter⟩
  | inr backwards =>
      exact ⟨block.symbols, _, turned backwards, turns.width_eq, Angle.isBasic_negQuarter⟩

private theorem isIdentity_xForY (symbols : PauliString) :
    (xForY symbols).isIdentity = symbols.isIdentity := by
  rw [xForY, PauliString.isIdentity, PauliString.isIdentity, List.all_map]
  congr 1
  funext symbol
  cases symbol <;> rfl

/-- The form of a block without Y takes its place. -/
theorem prepared_yFree {block : Block} (basic : block.TurnsBasic) :
    Prepared block.width (yFree block) [block] := by
  rcases exists_mirrored_yFree block.symbols with ⟨before, after, mirrored, _, surrounds⟩
  have around {part : List Block} (inside : ∀ other ∈ part, other ∈ before ++ after) :
      Prepared block.width part [] :=
    .rotations fun other member => (mirrored.aboutZ other (inside other member)).isBasic
  have core : Prepared block.width [{ block with symbols := xForY block.symbols }] [block] :=
    .single (List.length_map _) basic rfl (isIdentity_xForY _)
  rw [surrounds block.kind]
  exact (around fun other => List.mem_append_left _).append
    (core.append (around fun other => List.mem_append_right _))

/-! ## Moving quarter rotations -/

theorem TurnsBasic.regular {block : Block} (basic : block.TurnsBasic) : block.TurnsRegular :=
  fun angle kind => (Angle.isBasic_eq_ok_true.mp (basic angle kind)).1

theorem Turned.prepared {before after : Block} {width : Nat} (turned : before.Turned after)
    (wide : before.width = width) (basic : before.TurnsBasic) :
    Prepared width [after] [before] := by
  refine .single (turned.width_eq.trans wide) (fun angle kind => ?_) turned.isMeasurement_eq
    turned.isIdentity_eq
  rcases turned.exists_rotation kind with ⟨original, originalKind, size, regular⟩
  have originalBasic := Angle.isBasic_eq_ok_true.mp (basic original originalKind)
  refine Angle.isBasic_eq_ok_true.mpr ⟨regular originalBasic.1, ?_⟩
  rw [Angle.IsBasic, size]
  exact originalBasic.2

/-- Quarter rotations are not read out. -/
theorem prepared_remaining {width : Nat} {blocks : List Block}
    (wide : ∀ block ∈ blocks, block.width = width) (basic : ∀ block ∈ blocks, block.TurnsBasic) :
    Prepared width (remaining blocks) blocks := by
  induction blocks with
  | nil => exact .nil
  | cons block rest induction =>
      rw [List.forall_mem_cons] at wide basic
      have rest := induction wide.2 basic.2
      by_cases turns : block.TurnsQuarter
      · rw [remaining_cons_of_turnsQuarter turns]
        exact rest.skip turns.isMeasurement_eq
      · rw [remaining_cons_of_not turns]
        exact (Prepared.single wide.1 basic.1 rfl rfl).append rest

end Block

namespace Circuit

variable {circuit : Circuit} {original : List Block}

theorem prepared_blocks_basicForm {width : Nat} {approximator : Approximator} {basic : Circuit}
    (wide : ∀ block ∈ circuit.blocks, block.width = width)
    (computed : circuit.basicForm approximator = .ok basic) :
    basic.qubits = circuit.qubits ∧ Block.Prepared width basic.blocks circuit.blocks := by
  rcases bind_eq_ok.mp computed with ⟨parts, partsEq, basicEq⟩
  cases basicEq
  have each := (List.forall₂_and_left _ _).mpr ⟨wide, mapM_eq_ok.mp partsEq⟩
  refine ⟨rfl, .flatten (each.imp fun block part replaced => ?_)⟩
  rw [← replaced.1]
  exact Block.prepared_basicForm replaced.2

theorem prepared_basicForm {approximator : Approximator} {basic : Circuit}
    (uniform : circuit.Uniform) (computed : circuit.basicForm approximator = .ok basic) :
    basic.qubits = circuit.qubits ∧
      Block.Prepared basic.qubits basic.blocks circuit.blocks := by
  have prepared := prepared_blocks_basicForm uniform computed
  rw [prepared.1]
  exact ⟨rfl, prepared.2⟩

theorem prepared_yFree (prepared : Block.Prepared circuit.qubits circuit.blocks original) :
    Block.Prepared circuit.yFree.qubits circuit.yFree.blocks original := by
  refine prepared.trans ?_
  rw [yFree, List.flatMap]
  apply Block.Prepared.flatten
  rw [List.forall₂_map_right_iff, List.forall₂_same]
  intro block member
  have blockPrepared := Block.prepared_yFree (prepared.turnsBasic block member)
  rwa [prepared.width block member] at blockPrepared

theorem containsY_of_mem_yFree {block : Block} (member : block ∈ circuit.yFree.blocks) :
    block.containsY = false := by
  rcases List.mem_flatMap.mp member with ⟨source, _, emitted⟩
  exact Block.containsY_of_mem_yFree emitted

/-- What the Litinski transform does to basic blocks. -/
theorem litinski_cases (prepared : Block.Prepared circuit.qubits circuit.blocks original) :
    (∀ block ∈ circuit.blocks, ¬ block.TurnsQuarter) ∧ circuit.litinski = .ok circuit ∨
    (∃ block ∈ circuit.blocks, block.TurnsQuarter) ∧
      (circuit.hasMeasurement = false ∧
          circuit.litinski = Result.refuse .missingMeasurement ∨
        circuit.hasMeasurement = true ∧ ∃ absorbed,
          circuit.litinski = .ok { circuit with blocks := absorbed } ∧
          Block.Prepared circuit.qubits absorbed original) := by
  have fits : ∀ block ∈ circuit.blocks, block.Fits circuit.qubits := fun block member =>
    ⟨prepared.width block member, (prepared.turnsBasic block member).regular⟩
  rcases run_absorbAll_cases fits with
    ⟨none, run⟩ | ⟨present, ⟨unmeasured, run⟩ | ⟨measured, absorbed, run, turned⟩⟩
  · exact .inl ⟨none, Update.result_of_ok run⟩
  · exact .inr ⟨present, .inl ⟨unmeasured, Update.result_of_error run⟩⟩
  · have remaining := Block.prepared_remaining prepared.width prepared.turnsBasic
    have each := (List.forall₂_and_left _ _).mpr ⟨fun block member =>
      And.intro (remaining.width block member) (remaining.turnsBasic block member), turned⟩
    have absorbedPrepared :
        Block.Prepared circuit.qubits absorbed (Block.remaining circuit.blocks) :=
      .map (each.imp fun block other both => both.2.prepared both.1.1 both.1.2)
    exact .inr ⟨present, .inr ⟨measured, absorbed, Update.result_of_ok run,
      prepared.trans (remaining.trans absorbedPrepared)⟩⟩

end Circuit

end LatticeSurgery
