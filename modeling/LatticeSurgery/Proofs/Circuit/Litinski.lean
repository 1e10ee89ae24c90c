import LatticeSurgery.Proofs.Angle.Value
import LatticeSurgery.Proofs.Circuit.Absorption
import LatticeSurgery.Proofs.Operator.Evolution

namespace LatticeSurgery

open Matrix
open Result (bind_eq_ok mapM_eq_ok)

/-! # Moving quarter rotations to the end

A quarter rotation that is moved behind a block turns the axis of the block, and the
turned axis is again a Pauli string up to its sign. The evolution of a circuit is
therefore the evolution of the transformed circuit followed by the quarter rotations
that have been taken out of it. -/

namespace PauliString

variable {width : Nat}

private theorem smul_one_injective {left right : ℂ}
    (equal : left • (1 : Operator width) = right • (1 : Operator width)) : left = right := by
  have entry := congrFun (congrFun equal fun _ => false) fun _ => false
  simpa [Matrix.smul_apply] using entry

/-- The product of two anticommuting strings has the phase `i` or `-i`. -/
theorem phase_sq_of_anticommute {left right : PauliString} (leftWidth : left.length = width)
    (rightWidth : right.length = width) (clashing : left.commutes right = false) :
    (mul left right).1.toComplex * (mul left right).1.toComplex = -1 := by
  have product := operator_mul leftWidth rightWidth
  have exchanged := operator_anticommute leftWidth rightWidth clashing
  have squared : left.operator width * right.operator width *
      (left.operator width * right.operator width) = -1 := by
    calc left.operator width * right.operator width *
          (left.operator width * right.operator width)
        = left.operator width * right.operator width *
            -(right.operator width * left.operator width) := by rw [← exchanged]
      _ = -(left.operator width * (right.operator width * right.operator width) *
            left.operator width) := by
          rw [mul_neg]
          simp only [mul_assoc]
      _ = -1 := by rw [operator_mul_self, mul_one, operator_mul_self]
  rw [product, smul_mul_smul_comm, operator_mul_self] at squared
  rw [← neg_one_smul ℂ (1 : Operator width)] at squared
  exact smul_one_injective squared

end PauliString

namespace Phase

theorem toComplex_eq_of_sq_eq_one {phase : Phase} (unit : phase.toComplex * phase.toComplex = 1) :
    phase.toComplex = if phase.re < 0 then -1 else 1 := by
  have realPart : phase.toComplex.re = phase.re := by simp [toComplex]
  rcases mul_self_eq_one_iff.mp unit with plus | minus
  · rw [plus] at realPart
    have : phase.re = 1 := by exact_mod_cast realPart.symm
    rw [plus, if_neg (by omega)]
  · rw [minus] at realPart
    have : phase.re = -1 := by
      rw [Complex.neg_re, Complex.one_re] at realPart
      exact_mod_cast realPart.symm
    rw [minus, if_pos (by omega)]

theorem isSign_of_sq_eq_one {phase : Phase} (unit : phase.toComplex * phase.toComplex = 1) :
    phase.IsSign := by
  rcases mul_self_eq_one_iff.mp unit with plus | minus
  · have equal : phase = ⟨1, 0⟩ := toComplex_injective (by rw [plus]; simp [toComplex])
    rw [equal]
    decide
  · have equal : phase = ⟨-1, 0⟩ := toComplex_injective (by rw [minus]; simp [toComplex])
    rw [equal]
    decide

end Phase

namespace BlockKind

variable {width : Nat} {kind other : BlockKind}

/-- Two rotations by opposite angles, or two measurements of opposite signs. -/
def Opposite : BlockKind → BlockKind → Prop
  | .rotation angle, .rotation opposite => angle.neg = .ok opposite
  | .measurement negative, .measurement opposite => opposite = !negative
  | _, _ => False

theorem Opposite.symm (opposite : kind.Opposite other) : other.Opposite kind := by
  cases kind with
  | rotation angle =>
      cases other with
      | rotation negated => exact Angle.neg_of_neg opposite
      | measurement negative => cases opposite
  | measurement negative =>
      cases other with
      | rotation angle => cases opposite
      | measurement flipped =>
          rw [Opposite] at opposite ⊢
          rw [opposite, Bool.not_not]

theorem Opposite.unique {another : BlockKind} (first : kind.Opposite other)
    (second : kind.Opposite another) : other = another := by
  cases kind <;> cases other <;> cases another <;> simp_all [Opposite]

/-- The kind after its sign has been kept or flipped. -/
inductive Signed (kind : BlockKind) : ℂ → BlockKind → Prop
  | kept : Signed kind 1 kind
  | flipped {other : BlockKind} (opposite : kind.Opposite other) : Signed kind (-1) other

namespace Signed

variable {sign : ℂ}

theorem sign_mul_self (signed : kind.Signed sign other) : sign * sign = 1 := by
  cases signed <;> norm_num

theorem isMeasurement_eq (signed : kind.Signed sign other) (symbols after : PauliString) :
    (Block.mk after other).isMeasurement = (Block.mk symbols kind).isMeasurement := by
  cases signed with
  | kept => rfl
  | flipped opposite =>
      cases kind <;> cases other <;> simp_all [Opposite, Block.isMeasurement, Block.angle?]

/-- A flipped sign is that of the axis. -/
theorem action_eq (signed : kind.Signed sign other) (outcome : Outcome) (axis : Operator width) :
    other.action outcome axis = kind.action outcome (sign • axis) := by
  cases signed with
  | kept => rw [one_smul]
  | flipped opposite =>
      rw [neg_one_smul]
      cases kind with
      | rotation angle =>
          cases other with
          | rotation negated =>
              rw [action, action, Operator.rotation_neg_axis, Angle.value_of_neg opposite]
          | measurement negative => cases opposite
      | measurement negative =>
          cases other with
          | rotation angle => cases opposite
          | measurement flipped =>
              rw [Opposite] at opposite
              cases negative <;> simp [action, Operator.eigenprojector, opposite]

theorem trans {next : ℂ} {last : BlockKind} (first : kind.Signed sign other)
    (second : other.Signed next last) : kind.Signed (sign * next) last := by
  cases first with
  | kept => rwa [one_mul]
  | flipped opposite =>
      cases second with
      | kept =>
          rw [mul_one]
          exact .flipped opposite
      | flipped back =>
          rw [neg_one_mul, neg_neg, back.unique opposite.symm]
          exact .kept

theorem unique {another : BlockKind} (first : kind.Signed sign other)
    (second : kind.Signed sign another) : other = another := by
  cases first with
  | kept =>
      generalize signEq : (1 : ℂ) = sign at second
      cases second with
      | kept => rfl
      | flipped opposite => norm_num at signEq
  | flipped opposite =>
      generalize signEq : (-1 : ℂ) = sign at second
      cases second with
      | kept => norm_num at signEq
      | flipped other => exact opposite.unique other

end Signed

end BlockKind

namespace Block

variable {width : Nat}

theorem flipSign_eq_ok_iff {block flipped : Block} :
    block.flipSign = .ok flipped ↔
      flipped.symbols = block.symbols ∧ block.kind.Opposite flipped.kind := by
  rcases block with ⟨symbols, angle | negative⟩
  · rw [flipSign, bind_eq_ok]
    rcases flipped with ⟨after, opposite | sign⟩
    · simp [BlockKind.Opposite, and_comm, eq_comm]
    · simp [BlockKind.Opposite]
  · rcases flipped with ⟨after, opposite | sign⟩
    · simp [flipSign, BlockKind.Opposite]
    · simp [flipSign, BlockKind.Opposite, eq_comm]

/-! Behind an operator a block acts as another one does in front of it. -/

structure Carried (width : Nat) (through : Operator width) (next moved : Block) : Prop where
  width_eq : moved.width = width
  turned : ∃ sign, next.kind.Signed sign moved.kind ∧
    next.symbols.operator width * through = through * sign • moved.symbols.operator width

namespace Carried

variable {through : Operator width} {next moved : Block}

theorem isMeasurement_eq (carried : Carried width through next moved) :
    moved.isMeasurement = next.isMeasurement := by
  rcases carried.turned with ⟨sign, signed, _⟩
  exact signed.isMeasurement_eq next.symbols moved.symbols

theorem operator_eq (carried : Carried width through next moved) (outcome : Outcome) :
    next.operator width outcome * through = through * moved.operator width outcome := by
  rcases carried.turned with ⟨sign, signed, turned⟩
  have involution : sign • moved.symbols.operator width * sign • moved.symbols.operator width =
      1 := by
    rw [smul_mul_smul_comm, signed.sign_mul_self, moved.symbols.operator_mul_self, one_smul]
  rw [operator, operator, signed.action_eq]
  exact (next.kind.mul_action involution next.symbols.operator_mul_self turned.symm outcome).symm

end Carried

/-- The factor `i` or `-i` that goes with the product of a quarter rotation and a block. -/
private theorem carried_by_quarter {quarter next : PauliString} {angle : Angle}
    (quarterWidth : quarter.length = width) (nextWidth : next.length = width)
    (isQuarter : angle.isQuarter = .ok true) (clashing : quarter.commutes next = false) :
    (quarter.operator width).rotation angle.value *
        (((quarter.mul next).1 * (if angle.isNegative then Phase.negI else Phase.i)).toComplex •
          (quarter.mul next).2.operator width) =
      next.operator width * (quarter.operator width).rotation angle.value := by
  have involution : quarter.operator width * quarter.operator width = 1 :=
    quarter.operator_mul_self
  have anticommuting := PauliString.operator_anticommute quarterWidth nextWidth clashing
  have reversed := Operator.rotation_mul_of_anticommute involution anticommuting (-angle.value)
  rw [neg_neg] at reversed
  rw [← reversed, Phase.toComplex_mul, mul_comm (quarter.mul next).1.toComplex, mul_smul,
    ← PauliString.operator_mul quarterWidth nextWidth, ← smul_mul_assoc, ← mul_assoc]
  congr 1
  rw [Angle.value_of_isQuarter isQuarter]
  cases angle.isNegative with
  | false =>
      rw [if_neg (by simp), if_neg (by simp), Phase.toComplex_i,
        ← Operator.rotation_neg_half involution, ← Operator.rotation_add]
      norm_num
  | true =>
      rw [if_pos rfl, if_pos rfl, Phase.toComplex_negI, ← Operator.rotation_half involution,
        ← Operator.rotation_add]
      norm_num

/-- With that factor the phase of the product is a sign. -/
private theorem turned_sq {quarter next : PauliString} (angle : Angle)
    (quarterWidth : quarter.length = width) (nextWidth : next.length = width)
    (clashing : quarter.commutes next = false) {turned : Phase}
    (turnedEq : (quarter.mul next).1 * (if angle.isNegative then Phase.negI else Phase.i) =
      turned) : turned.toComplex * turned.toComplex = 1 := by
  rw [← turnedEq, Phase.toComplex_mul, mul_mul_mul_comm,
    PauliString.phase_sq_of_anticommute quarterWidth nextWidth clashing]
  split <;> simp

/-- The phase that is asserted to be a sign is one. -/
theorem isSign_turned {quarter next : PauliString} (angle : Angle)
    (sameWidth : quarter.length = next.length) (clashing : quarter.commutes next = false) :
    ((quarter.mul next).1 * (if angle.isNegative then Phase.negI else Phase.i)).IsSign :=
  Phase.isSign_of_sq_eq_one (turned_sq angle sameWidth rfl clashing rfl)

/-- A block that does not commute with the rotation becomes the product, with or without
its sign flipped. -/
theorem behindQuarter_cases {next quarter : Block} (angle : Angle)
    (sameWidth : quarter.width = next.width) (clashing : quarter.productsCommute next = false) :
    let moved : Block := { next with symbols := (quarter.symbols.mul next.symbols).2 }
    next.behindQuarter quarter angle = moved.flipSign ∨
      next.behindQuarter quarter angle = .ok moved := by
  have sign := isSign_turned angle sameWidth clashing
  rw [behindQuarter, clashing, if_neg Bool.false_ne_true]
  dsimp only
  generalize (quarter.symbols.mul next.symbols).1 *
    (if angle.isNegative then Phase.negI else Phase.i) = turned at sign ⊢
  rw [if_neg (not_not.mpr sign)]
  split
  · exact .inl rfl
  · exact .inr rfl

/-- A quarter rotation that is moved behind a block leaves the block changed such that the
two orders are the same operator. -/
theorem carried_behindQuarter {quarter next moved : Block} {angle : Angle}
    (quarterWidth : quarter.width = width) (nextWidth : next.width = width)
    (isQuarter : angle.isQuarter = .ok true)
    (computed : next.behindQuarter quarter angle = .ok moved) :
    Carried width ((quarter.symbols.operator width).rotation angle.value) next moved := by
  rw [behindQuarter] at computed
  split at computed
  · next commuting =>
      cases computed
      have exchanged := PauliString.operator_commute quarterWidth nextWidth commuting
      have carried := Operator.mul_rotation quarter.symbols.operator_mul_self
        quarter.symbols.operator_mul_self exchanged.symm angle.value
      exact ⟨nextWidth, 1, .kept, by rw [one_smul, carried]⟩
  · next clashing =>
      have anticommuting : quarter.symbols.commutes next.symbols = false := by
        simpa [productsCommute] using clashing
      have productWidth : (quarter.symbols.mul next.symbols).2.length = width := by
        rw [PauliString.length_mul_snd]
        exact (min_eq_left (quarterWidth.trans nextWidth.symm).le).trans quarterWidth
      have carried := carried_by_quarter quarterWidth nextWidth isQuarter anticommuting
      simp only at computed
      generalize turnedEq : (quarter.symbols.mul next.symbols).1 *
        (if angle.isNegative then Phase.negI else Phase.i) = turned at carried computed
      have unit := turned_sq angle quarterWidth nextWidth anticommuting turnedEq
      rw [Phase.toComplex_eq_of_sq_eq_one unit] at carried
      rw [if_neg (not_not.mpr (Phase.isSign_of_sq_eq_one unit))] at computed
      split at computed
      · next negative =>
          have flipped : moved.symbols = (quarter.symbols.mul next.symbols).2 ∧
              next.kind.Opposite moved.kind := flipSign_eq_ok_iff.mp computed
          rw [if_pos negative, ← flipped.1] at carried
          refine ⟨?_, -1, .flipped flipped.2, carried.symm⟩
          rw [Block.width, flipped.1, productWidth]
      · next nonnegative =>
          rw [if_neg nonnegative] at carried
          cases computed
          exact ⟨productWidth, 1, .kept, carried.symm⟩

/-- A quarter rotation moved behind a whole sequence. -/
private theorem evolution_behindQuarter {quarter : Block} {angle : Angle}
    (quarterWidth : quarter.width = width) (isQuarter : angle.isQuarter = .ok true)
    {blocks moved : List Block} (uniform : ∀ block ∈ blocks, block.width = width)
    (computed : List.Forall₂
      (fun next moved => next.behindQuarter quarter angle = .ok moved) blocks moved) :
    (∀ block ∈ moved, block.width = width) ∧
      measurementCount moved = measurementCount blocks ∧
      ∀ outcomes, evolution width blocks outcomes *
          (quarter.symbols.operator width).rotation angle.value =
        (quarter.symbols.operator width).rotation angle.value *
          evolution width moved outcomes := by
  induction computed with
  | nil => simp [measurementCount]
  | @cons next movedNext rest movedRest step _ induction =>
      rcases induction fun block member => uniform block (List.mem_cons_of_mem _ member) with
        ⟨restUniform, restCount, restCarried⟩
      have carried := carried_behindQuarter quarterWidth (uniform next List.mem_cons_self)
        isQuarter step
      have headCount : measurementCount [movedNext] = measurementCount [next] := by
        simp [measurementCount, carried.isMeasurement_eq]
      refine ⟨?_, ?_, fun outcomes => ?_⟩
      · intro block member
        rcases List.mem_cons.mp member with rfl | member
        · exact carried.width_eq
        · exact restUniform block member
      · rw [measurementCount_cons, measurementCount_cons next, headCount, restCount]
      · rw [evolution_cons, evolution_cons, mul_assoc, carried.operator_eq, ← mul_assoc,
          restCarried, headCount, mul_assoc]

/-- The quarter rotations of a sequence. -/
def quarterRotations (blocks : List Block) : List Block :=
  blocks.filter fun block =>
    match block.isQuarterRotation with
    | .ok isQuarter => isQuarter
    | .error _ => false

theorem isRotation_of_mem_quarterRotations {blocks : List Block} {block : Block}
    (member : block ∈ quarterRotations blocks) : block.isRotation = true := by
  have isQuarter := List.of_mem_filter member
  rcases block with ⟨symbols, angle | negative⟩
  · rfl
  · simp [isQuarterRotation] at isQuarter

end Block

namespace Circuit

variable {width : Nat}

/-- What taking out the quarter rotations of a sequence leaves of it. -/
private structure Absorbs (width : Nat) (blocks absorbed : List Block) : Prop where
  uniform : ∀ block ∈ absorbed, block.width = width
  measurementCount_eq : Block.measurementCount absorbed = Block.measurementCount blocks
  evolution_eq : ∀ outcomes others, Block.evolution width blocks outcomes =
    Block.evolution width (Block.quarterRotations blocks) others *
      Block.evolution width absorbed outcomes

private theorem Absorbs.keep {block : Block} {rest absorbed : List Block}
    (absorbs : Absorbs width rest absorbed) (blockWidth : block.width = width)
    (kept : Block.quarterRotations (block :: rest) = Block.quarterRotations rest) :
    Absorbs width (block :: rest) (block :: absorbed) where
  uniform := by
    intro other member
    rcases List.mem_cons.mp member with rfl | member
    · exact blockWidth
    · exact absorbs.uniform other member
  measurementCount_eq := by
    rw [Block.measurementCount_cons, Block.measurementCount_cons block rest,
      absorbs.measurementCount_eq]
  evolution_eq outcomes others := by
    rw [kept, Block.evolution_cons, Block.evolution_cons, absorbs.evolution_eq _ others, mul_assoc]

private theorem Absorbs.move {symbols : PauliString} {angle : Angle}
    {rest absorbed moved : List Block} (absorbs : Absorbs width rest absorbed)
    (blockWidth : (Block.rotation symbols angle).width = width)
    (isQuarter : angle.isQuarter = .ok true)
    (computed : List.Forall₂ (fun next moved =>
      next.behindQuarter (Block.rotation symbols angle) angle = .ok moved) absorbed moved) :
    Absorbs width (Block.rotation symbols angle :: rest) moved := by
  rcases Block.evolution_behindQuarter blockWidth isQuarter absorbs.uniform computed with
    ⟨movedUniform, movedCount, carried⟩
  have noMeasurement : Block.measurementCount [Block.rotation symbols angle] = 0 := rfl
  have taken : Block.quarterRotations (Block.rotation symbols angle :: rest) =
      Block.rotation symbols angle :: Block.quarterRotations rest := by
    simp [Block.quarterRotations, Block.isQuarterRotation, Block.rotation, isQuarter]
  refine ⟨movedUniform, ?_, fun outcomes others => ?_⟩
  · rw [movedCount, absorbs.measurementCount_eq, Block.measurementCount_cons, noMeasurement,
      Nat.zero_add]
  · rw [taken, Block.evolution_cons, Block.evolution_cons, noMeasurement, Block.Outcomes.after_zero,
      Block.Outcomes.after_zero, absorbs.evolution_eq outcomes others, mul_assoc, mul_assoc]
    exact congrArg _ (carried outcomes)

private theorem absorbs_absorbQuarters {blocks absorbed : List Block}
    (uniform : ∀ block ∈ blocks, block.width = width)
    (computed : absorbQuarters blocks = .ok absorbed) : Absorbs width blocks absorbed := by
  induction blocks generalizing absorbed with
  | nil =>
      cases computed
      exact ⟨by simp, rfl, fun _ _ => by simp [Block.quarterRotations]⟩
  | cons block rest induction =>
      rw [absorbQuarters, bind_eq_ok] at computed
      rcases computed with ⟨absorbedRest, restComputed, computed⟩
      have absorbs := induction (fun other member => uniform other (List.mem_cons_of_mem _ member))
        restComputed
      have blockWidth := uniform block List.mem_cons_self
      rcases block with ⟨symbols, angle | negative⟩
      · rw [bind_eq_ok] at computed
        rcases computed with ⟨isQuarter, tested, computed⟩
        cases isQuarter with
        | true =>
            rw [if_pos rfl, mapM_eq_ok] at computed
            exact absorbs.move blockWidth tested computed
        | false =>
            cases computed
            exact absorbs.keep blockWidth
              (by simp [Block.quarterRotations, Block.isQuarterRotation, tested])
      · cases computed
        exact absorbs.keep blockWidth (by simp [Block.quarterRotations, Block.isQuarterRotation])

theorem quarterRotations_eq_nil {blocks : List Block} {quarters : List Bool}
    (tested : List.Forall₂ (fun block isQuarter => block.isQuarterRotation = .ok isQuarter)
      blocks quarters)
    (none : quarters.contains true = false) : Block.quarterRotations blocks = [] := by
  induction tested with
  | nil => rfl
  | @cons block isQuarter rest restQuarters blockTested _ induction =>
      rw [List.contains_cons, Bool.or_eq_false_iff] at none
      have notQuarter : isQuarter = false := by simpa using none.1
      rw [Block.quarterRotations, List.filter_cons, blockTested, notQuarter]
      exact induction none.2

/-- The evolution of a circuit is that of its Litinski transform, followed by the
quarter rotations of the circuit in their order. -/
theorem evolution_of_litinski {circuit transformed : Circuit}
    (wide : ∀ block ∈ circuit.blocks, block.width = width)
    (computed : circuit.litinski = .ok transformed) :
    transformed.qubits = circuit.qubits ∧ (∀ block ∈ transformed.blocks, block.width = width) ∧
      Block.measurementCount transformed.blocks = Block.measurementCount circuit.blocks ∧
      ∀ outcomes others, Block.evolution width circuit.blocks outcomes =
        Block.evolution width (Block.quarterRotations circuit.blocks) others *
          Block.evolution width transformed.blocks outcomes := by
  rw [litinski_eq, bind_eq_ok] at computed
  rcases computed with ⟨quarters, tested, computed⟩
  have testedEach := mapM_eq_ok.mp (Result.ofFaulty_eq_ok_iff.mp tested)
  cases present : quarters.contains true with
  | false =>
      rw [present] at computed
      cases computed
      have noQuarters := quarterRotations_eq_nil testedEach present
      exact ⟨rfl, wide, rfl, fun outcomes others => by simp [noQuarters]⟩
  | true =>
      rw [present] at computed
      cases measured : circuit.hasMeasurement with
      | false => simp [measured] at computed
      | true =>
          rw [measured, if_pos rfl, if_pos rfl, bind_eq_ok] at computed
          simp only [Result.ofFaulty_eq_ok_iff] at computed
          rcases computed with ⟨absorbed, absorbedEq, transformedEq⟩
          cases transformedEq
          have absorbs := absorbs_absorbQuarters wide absorbedEq
          exact ⟨rfl, absorbs.uniform, absorbs.measurementCount_eq, absorbs.evolution_eq⟩

end Circuit

end LatticeSurgery
