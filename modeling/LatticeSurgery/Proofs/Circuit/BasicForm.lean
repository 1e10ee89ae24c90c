import LatticeSurgery.Proofs.Angle.Splitting
import LatticeSurgery.Proofs.Operator.Evolution

namespace LatticeSurgery

open Matrix
open Result (bind_eq_ok exists_of_mem_right liftM_eq_ofFaulty mapM_eq_ok ofFaulty_eq_ok_iff
  ofFaulty_ok ok_bind)

/-! # Splitting angles

Without a source of approximations the basic form of a block is the block itself or
rotations about its product. Their amounts add up to the angle of the block except
for half turns, so only a global sign is lost. -/

namespace Block

variable {width : Nat}

theorem evolution_rotations (symbols : PauliString) (terms : List Angle) (outcomes : Outcomes) :
    evolution width (terms.map (rotation symbols)) outcomes =
      (symbols.operator width).rotation (terms.map Angle.value).sum := by
  induction terms generalizing outcomes with
  | nil => simp [Operator.rotation_zero]
  | cons term rest induction =>
      rw [List.map_cons, evolution_cons, induction, List.map_cons, List.sum_cons, add_comm,
        Operator.rotation_add]
      rfl

theorem measurementCount_rotations (symbols : PauliString) (terms : List Angle) :
    measurementCount (terms.map (rotation symbols)) = 0 := by
  simp [measurementCount, List.countP_eq_zero, isMeasurement, rotation, angle?]

theorem approximate_none_ne_ok (symbols : PauliString) (angle : Angle) (blocks : List Block) :
    approximate Approximator.none symbols angle ≠ .ok blocks := by
  rw [approximate]
  split <;> simp [Approximator.none]

theorem basicTerm_none_eq_ok {symbols : PauliString} {term : Angle} {blocks : List Block} :
    basicTerm Approximator.none symbols term = .ok blocks ↔
      term.denom ≤ 8 ∧ blocks = [rotation symbols term] := by
  rw [basicTerm]
  split
  · next coarse => simp [coarse, eq_comm]
  · next fine => simp [fine, approximate_none_ne_ok]

private theorem mapM_basicTerm_none_eq_ok {symbols : PauliString} {terms : List Angle}
    {parts : List (List Block)} :
    terms.mapM (basicTerm Approximator.none symbols) = .ok parts ↔
      (∀ term ∈ terms, term.denom ≤ 8) ∧ parts = terms.map fun term => [rotation symbols term] := by
  rw [mapM_eq_ok]
  simp only [basicTerm_none_eq_ok]
  constructor
  · intro computed
    induction computed with
    | nil => simp
    | cons head _ induction =>
        rw [List.forall_mem_cons, List.map_cons, head.2, induction.2]
        exact ⟨⟨head.1, induction.1⟩, rfl⟩
  · intro described
    rw [described.2, List.forall₂_map_right_iff, List.forall₂_same]
    exact fun term member => ⟨described.1 term member, rfl⟩

/-- What takes the place of a block when there are no approximations: the block itself, or the
terms of its angle about the same product. -/
inductive SplitsInto : Block → List Block → Prop where
  | itself {block : Block}
      (basic : ∀ angle, block.kind = .rotation angle → angle.isBasic = .ok true) :
      SplitsInto block [block]
  | terms {symbols : PauliString} {angle : Angle} {terms : List Angle}
      (notBasic : angle.isBasic = .ok false) (split : angle.dyadicTerms = .ok (some terms))
      (coarse : ∀ term ∈ terms, term.denom ≤ 8) :
      SplitsInto (rotation symbols angle) (terms.map (rotation symbols))

theorem basicForm_none_eq_ok {block : Block} {blocks : List Block} :
    block.basicForm Approximator.none = .ok blocks ↔ block.SplitsInto blocks := by
  constructor
  · intro computed
    rcases block with ⟨symbols, kind⟩
    rw [basicForm] at computed
    cases kind with
    | measurement negative =>
        cases computed
        exact .itself fun angle kind => nomatch kind
    | rotation angle =>
        rcases bind_eq_ok.mp computed with ⟨isBasic, tested, computed⟩
        rw [liftM_eq_ofFaulty, ofFaulty_eq_ok_iff] at tested
        cases isBasic with
        | true =>
            cases computed
            apply SplitsInto.itself
            intro other kind
            cases kind
            exact tested
        | false =>
            rw [if_neg Bool.false_ne_true] at computed
            rcases bind_eq_ok.mp computed with ⟨split, splitEq, computed⟩
            rw [liftM_eq_ofFaulty, ofFaulty_eq_ok_iff] at splitEq
            cases split with
            | none => exact absurd computed (approximate_none_ne_ok _ _ _)
            | some terms =>
                rcases bind_eq_ok.mp computed with ⟨parts, partsEq, blocksEq⟩
                have described := mapM_basicTerm_none_eq_ok.mp partsEq
                cases blocksEq
                rw [described.2, ← List.flatMap, ← List.map_eq_flatMap]
                exact .terms tested splitEq described.1
  · intro splits
    cases splits with
    | itself basic =>
        rw [basicForm]
        cases kind : block.kind with
        | measurement negative => rfl
        | rotation angle =>
            simp only [basic angle kind]
            rfl
    | @terms symbols angle terms notBasic split coarse =>
        have parts : terms.mapM (basicTerm Approximator.none symbols) = .ok _ :=
          mapM_basicTerm_none_eq_ok.mpr ⟨coarse, rfl⟩
        simp only [basicForm, rotation, notBasic, split, liftM_eq_ofFaulty, ofFaulty_ok, ok_bind]
        rw [if_neg Bool.false_ne_true, parts, ok_bind, ← List.flatMap, ← List.map_eq_flatMap]
        rfl

namespace SplitsInto

variable {block : Block} {blocks : List Block}

theorem symbols_eq (splits : block.SplitsInto blocks) {member : Block} (emitted : member ∈ blocks) :
    member.symbols = block.symbols := by
  cases splits with
  | itself basic => rw [List.mem_singleton.mp emitted]
  | terms notBasic split coarse =>
      rcases List.mem_map.mp emitted with ⟨term, _, rfl⟩
      rfl

theorem agreeUpTo (width : Nat) (splits : block.SplitsInto blocks) :
    ∃ sign ∈ Submonoid.powers (-1 : ℂ), AgreeUpTo width sign [block] blocks := by
  cases splits with
  | itself basic => exact ⟨1, Submonoid.one_mem _, AgreeUpTo.refl _⟩
  | @terms symbols angle terms notBasic split coarse =>
      have involution : symbols.operator width * symbols.operator width = 1 :=
        symbols.operator_mul_self
      rcases Angle.sum_of_dyadicTerms split with ⟨left, sum⟩
      rcases Operator.rotation_intCast involution left with ⟨sign, signMem, turns⟩
      refine ⟨sign, signMem, ?_, fun outcomes => ?_⟩
      · rw [measurementCount_rotations]
        rfl
      · rw [evolution_rotations, evolution_singleton, operator, rotation, BlockKind.action, sum,
          Operator.rotation_add, turns, mul_smul_comm, mul_one]

theorem basicForm_eq_self {member : Block} (splits : block.SplitsInto blocks)
    (emitted : member ∈ blocks) : member.basicForm Approximator.none = .ok [member] := by
  apply basicForm_none_eq_ok.mpr
  cases splits with
  | itself basic =>
      cases List.mem_singleton.mp emitted
      exact .itself basic
  | terms notBasic split coarse =>
      rcases List.mem_map.mp emitted with ⟨term, listed, rfl⟩
      apply SplitsInto.itself
      intro angle kind
      cases kind
      exact Angle.isBasic_of_mem_dyadicTerms split listed (coarse term listed)

theorem measurement_or_isBasic {member : Block} (splits : block.SplitsInto blocks)
    (emitted : member ∈ blocks) :
    (member = block ∧ ∃ negative, block.kind = .measurement negative) ∨
      ∃ amount : Angle, member = rotation block.symbols amount ∧ amount.IsBasic := by
  cases splits with
  | itself basic =>
      cases List.mem_singleton.mp emitted
      rcases block with ⟨symbols, kind⟩
      cases kind with
      | measurement negative => exact .inl ⟨rfl, negative, rfl⟩
      | rotation angle =>
          exact .inr ⟨angle, rfl, (Angle.isBasic_eq_ok_true.mp (basic angle rfl)).2⟩
  | terms notBasic split coarse =>
      rcases List.mem_map.mp emitted with ⟨term, listed, rfl⟩
      have basic := Angle.isBasic_of_mem_dyadicTerms split listed (coarse term listed)
      exact .inr ⟨term, rfl, (Angle.isBasic_eq_ok_true.mp basic).2⟩

theorem evolution_eq_or_neg {angle : Angle} (splits : block.SplitsInto blocks)
    (kind : block.kind = .rotation angle) (outcomes : Outcomes) :
    evolution width blocks outcomes = (block.symbols.operator width).rotation angle.value ∨
      evolution width blocks outcomes = -(block.symbols.operator width).rotation angle.value := by
  rcases splits.agreeUpTo width with ⟨sign, ⟨count, rfl⟩, agrees⟩
  have evolved := agrees.evolution_eq outcomes
  rw [evolution_singleton, operator, kind, BlockKind.action] at evolved
  rw [evolved]
  cases neg_one_pow_eq_or ℂ count with
  | inl positive =>
      left
      simp [positive]
  | inr negative =>
      right
      simp [negative]

theorem length_le (splits : block.SplitsInto blocks) : blocks.length ≤ 3 := by
  cases splits with
  | itself basic => exact Nat.succ_le_succ (Nat.zero_le 2)
  | terms notBasic split coarse =>
      rw [List.length_map]
      exact Angle.length_dyadicTerms_le split ((Angle.coarse_dyadicTerms_iff split).mp coarse)

end SplitsInto

/-! ## Exactness -/

/-- Without approximations exactly the angles that split have a basic form. -/
theorem exists_basicForm_none_iff {symbols : PauliString} {angle : Angle} :
    (∃ blocks, (rotation symbols angle).basicForm Approximator.none = .ok blocks) ↔
      angle.Regular ∧ angle.Splits := by
  simp only [basicForm_none_eq_ok]
  constructor
  · intro found
    rcases found with ⟨blocks, splits⟩
    cases splits with
    | itself basic =>
        have tested := Angle.isBasic_eq_ok_true.mp (basic angle rfl)
        exact ⟨tested.1, .inl tested.2⟩
    | terms notBasic split coarse =>
        have dyadic := Angle.isDyadic_of_dyadicTerms split
        have multiple : angle.MultipleOf 3 := (Angle.coarse_dyadicTerms_iff split).mp coarse
        exact ⟨⟨dyadic.denom_pos, Angle.numer_ne_of_isBasic notBasic⟩, .inr ⟨dyadic, multiple⟩⟩
  · intro described
    by_cases basic : angle.IsBasic
    · refine ⟨_, .itself fun other kind => ?_⟩
      cases kind
      exact Angle.isBasic_eq_ok_true.mpr ⟨described.1, basic⟩
    · have divided := described.2.resolve_left basic
      rcases divided.1.exists_dyadicTerms with ⟨terms, split⟩
      have notBasic : angle.isBasic = .ok false := by
        rw [described.1.isBasic_eq, decide_eq_false basic]
      exact ⟨_, .terms notBasic split ((Angle.coarse_dyadicTerms_iff split).mpr divided.2)⟩

/-- Without approximations a basic form is exact up to a global sign: it is the measurement
itself, or at most three basic rotations about the same product, none of which splits further. The
angles of a rotation that have one are the multiples of one eighth. -/
theorem basicForm_none_exact {block : Block}
    (lowest : ∀ angle, block.kind = .rotation angle →
      angle.Lowest ∧ angle.numer ≠ -Word.limit64) :
    (∀ blocks, block.basicForm Approximator.none = .ok blocks →
      (∀ member ∈ blocks, (member = block ∧ ∃ negative, block.kind = .measurement negative) ∨
        ∃ amount : Angle, member = rotation block.symbols amount ∧ amount.IsBasic) ∧
      (∀ angle, block.kind = .rotation angle → ∀ outcomes,
        evolution block.width blocks outcomes =
            (block.symbols.operator block.width).rotation angle.value ∨
          evolution block.width blocks outcomes =
            -(block.symbols.operator block.width).rotation angle.value) ∧
      blocks.length ≤ 3 ∧
      ∀ member ∈ blocks, member.basicForm Approximator.none = .ok [member]) ∧
    (∀ negative, block.kind = .measurement negative →
      block.basicForm Approximator.none = .ok [block]) ∧
    ∀ angle, block.kind = .rotation angle →
      ((∃ blocks, block.basicForm Approximator.none = .ok blocks) ↔
        angle.denom = 1 ∨ angle.denom = 2 ∨ angle.denom = 4 ∨ angle.denom = 8) := by
  refine ⟨fun blocks computed => ?_, fun negative kind => ?_, fun angle kind => ?_⟩
  · have splits := basicForm_none_eq_ok.mp computed
    exact ⟨fun _ => splits.measurement_or_isBasic, fun _ => splits.evolution_eq_or_neg,
      splits.length_le, fun _ => splits.basicForm_eq_self⟩
  · apply basicForm_none_eq_ok.mpr
    apply SplitsInto.itself
    intro angle turning
    rw [kind] at turning
    cases turning
  · have fields := lowest angle kind
    have regular : angle.Regular := ⟨fields.1.denom_pos, fields.2⟩
    have turning : block = rotation block.symbols angle := by rw [rotation, ← kind]
    rw [← fields.1.splits_iff, turning, exists_basicForm_none_iff, and_iff_right regular]

theorem basicForm_none_fifteenEighths :
    ∃ blocks, (rotation [.Z, .Y] { numer := 15, denom := 8 }).basicForm Approximator.none =
        .ok blocks ∧ blocks.length ≤ 3 ∧
      (∀ member ∈ blocks, member.basicForm Approximator.none = .ok [member]) ∧
      ∀ outcomes, evolution 2 blocks outcomes =
          (PauliString.operator 2 [.Z, .Y]).rotation (Angle.value { numer := 15, denom := 8 }) ∨
        evolution 2 blocks outcomes =
          -(PauliString.operator 2 [.Z, .Y]).rotation
            (Angle.value { numer := 15, denom := 8 }) := by
  have lowest : ∀ angle,
      (rotation [.Z, .Y] { numer := 15, denom := 8 }).kind = .rotation angle →
        angle.Lowest ∧ angle.numer ≠ -Word.limit64 := by
    intro angle kind
    cases kind
    exact ⟨by decide, by decide⟩
  have exact := basicForm_none_exact lowest
  rcases (exact.2.2 _ rfl).mpr (by decide) with ⟨blocks, computed⟩
  have described := exact.1 blocks computed
  exact ⟨blocks, computed, described.2.2.1, described.2.2.2, described.2.1 _ rfl⟩

end Block

namespace Circuit

theorem splits_of_basicForm {circuit basic : Circuit}
    (computed : circuit.basicForm Approximator.none = .ok basic) :
    ∃ parts, List.Forall₂ Block.SplitsInto circuit.blocks parts ∧
      basic = { circuit with blocks := parts.flatten } := by
  rcases bind_eq_ok.mp computed with ⟨parts, partsEq, basicEq⟩
  exact ⟨parts, (mapM_eq_ok.mp partsEq).imp fun _ _ => Block.basicForm_none_eq_ok.mp,
    (Except.ok.inj basicEq).symm⟩

/-- A circuit and its basic form evolve alike up to a global sign. -/
theorem agreeUpTo_basicForm {circuit basic : Circuit}
    (computed : circuit.basicForm Approximator.none = .ok basic) :
    basic.qubits = circuit.qubits ∧ ∃ sign ∈ Submonoid.powers (-1 : ℂ),
      Block.AgreeUpTo circuit.qubits sign circuit.blocks basic.blocks := by
  rcases splits_of_basicForm computed with ⟨parts, splits, rfl⟩
  exact ⟨rfl, Block.AgreeUpTo.flatten (splits.imp fun _ _ each => each.agreeUpTo _)⟩

theorem uniform_basicForm {circuit basic : Circuit} (uniform : circuit.Uniform)
    (computed : circuit.basicForm Approximator.none = .ok basic) : basic.Uniform := by
  rcases splits_of_basicForm computed with ⟨parts, splits, rfl⟩
  intro block member
  rcases List.mem_flatten.mp member with ⟨part, listed, emitted⟩
  rcases exists_of_mem_right splits listed with ⟨source, sourceMember, sourceSplits⟩
  rw [Block.width, sourceSplits.symbols_eq emitted]
  exact uniform source sourceMember

end Circuit

end LatticeSurgery
