import LatticeSurgery.Operation.Gadget
import LatticeSurgery.Proofs.Angle.Representation
import LatticeSurgery.Proofs.Circuit.Fitting

namespace LatticeSurgery

open Result

/-! # Blocks that compare equal

Blocks are compared by the values of their angles, but they are transformed by the pairs that are
stored. Blocks that compare equal behave equally when their angles are regular. Only the basic form
also depends on whether the stored denominators are powers of two. -/

/-- The failures are the same fault, or refusals for reasons of the same kind. -/
inductive Failure.SameKind {Error : Type} (kind : Error → String) :
    Failure Error → Failure Error → Prop
  | fault (cause : Fault) : SameKind kind (.fault cause) (.fault cause)
  | refused {left right : Error} (same : kind left = kind right) :
      SameKind kind (.refused left) (.refused right)

theorem Failure.SameKind.refl {Error : Type} (kind : Error → String) (failure : Failure Error) :
    SameKind kind failure failure := by
  cases failure with
  | fault cause => exact .fault cause
  | refused error => exact .refused rfl

theorem Result.agree_self {Error α : Type} (kind : Error → String) (attempt : Result Error α) :
    Agree (Failure.SameKind kind) Eq attempt attempt :=
  .refl (.refl kind) (fun _ => rfl) attempt

/-! ## Blocks -/

namespace Block

/-- The same product with the same sign or with related angles. -/
inductive Alike (Related : Angle → Angle → Prop) : Block → Block → Prop
  | rotation (symbols : PauliString) {left right : Angle} (related : Related left right) :
      Alike Related (rotation symbols left) (rotation symbols right)
  | measurement (symbols : PauliString) (negative : Bool) :
      Alike Related (measurement symbols negative) (measurement symbols negative)

abbrev Akin : Block → Block → Prop := Alike Angle.Akin

/-- Comparison finds the blocks equal. -/
def Compares (left right : Block) : Prop := left.isSame right = .ok true

instance (left right : Block) : Decidable (left.Compares right) :=
  inferInstanceAs (Decidable (_ = _))

/-- Comparison finds the blocks equal, and they are stored alike or have regular angles. -/
structure Matches (left right : Block) : Prop where
  compared : left.Compares right
  stored : left = right ∨ left.TurnsRegular ∧ right.TurnsRegular

variable {left right : Block}

theorem Alike.refl {Related : Angle → Angle → Prop} (reflexive : ∀ angle, Related angle angle)
    (block : Block) : Alike Related block block := by
  rcases block with ⟨symbols, kind⟩
  cases kind with
  | rotation angle => exact .rotation symbols (reflexive angle)
  | measurement negative => exact .measurement symbols negative

theorem Akin.refl (block : Block) : block.Akin block := Alike.refl .refl block

theorem forall₂_akin_self (blocks : List Block) : List.Forall₂ Akin blocks blocks :=
  List.forall₂_same.mpr fun block _ => .refl block

theorem compares_iff : left.Compares right ↔ Alike Angle.Compares left right := by
  constructor
  · intro compared
    rcases left with ⟨symbols, kind⟩
    rcases right with ⟨others, other⟩
    rw [Compares, isSame] at compared
    split at compared
    · next sameSymbols =>
        cases sameSymbols
        cases kind <;> cases other
        · exact .rotation symbols compared
        · cases compared
        · cases compared
        · cases of_decide_eq_true (Except.ok.inj compared)
          exact .measurement symbols _
    · cases compared
  · intro alike
    cases alike with
    | rotation symbols related => exact (if_pos rfl).trans related
    | measurement symbols negative => exact (if_pos rfl).trans (congrArg _ (decide_eq_true rfl))

theorem Matches.akin (matching : left.Matches right) : left.Akin right := by
  cases matching.stored with
  | inl equal =>
      rw [equal]
      exact .refl right
  | inr regular =>
      cases compares_iff.mp matching.compared with
      | rotation symbols related =>
          exact .rotation symbols (.inr ⟨regular.1 _ rfl, regular.2 _ rfl, related.same⟩)
      | measurement symbols negative => exact .measurement symbols negative

/-- Angles in lowest terms compare equal only when they are the same. -/
theorem eq_of_compares (compared : left.Compares right)
    (leftLowest : ∀ angle, left.kind = .rotation angle → angle.Lowest)
    (rightLowest : ∀ angle, right.kind = .rotation angle → angle.Lowest) : left = right := by
  cases compares_iff.mp compared with
  | rotation symbols related =>
      rw [(leftLowest _ rfl).ext (rightLowest _ rfl) related.same]
  | measurement symbols negative => rfl

/-- Removing Y never looks at the angle. -/
theorem Compares.yFree (compared : left.Compares right) :
    List.Forall₂ Compares left.yFree right.yFree := by
  have same (block : Block) : block.Compares block := compares_iff.mpr (.refl .refl block)
  cases compares_iff.mp compared with
  | rotation symbols related =>
      rcases exists_mirrored_yFree symbols with ⟨before, after, _, _, surrounds⟩
      rw [Block.rotation, Block.rotation, surrounds, surrounds]
      exact List.rel_append (List.forall₂_same.mpr fun block _ => same block)
        (.cons (compares_iff.mpr (.rotation (xForY symbols) related))
          (List.forall₂_same.mpr fun block _ => same block))
  | measurement symbols negative => exact List.forall₂_same.mpr fun block _ => same block

namespace Akin

theorem compares (akin : left.Akin right) : left.Compares right := by
  apply compares_iff.mpr
  cases akin with
  | rotation symbols akin => exact .rotation symbols akin.compares
  | measurement symbols negative => exact .measurement symbols negative

theorem isMeasurement_eq (akin : left.Akin right) : left.isMeasurement = right.isMeasurement := by
  cases akin <;> rfl

theorem isQuarterRotation_eq (akin : left.Akin right) :
    left.isQuarterRotation = right.isQuarterRotation := by
  cases akin with
  | rotation symbols akin => exact akin.hasMagnitude_eq _
  | measurement symbols negative => rfl

theorem flipSign (akin : left.Akin right) : Agree Eq Akin left.flipSign right.flipSign := by
  cases akin with
  | rotation symbols akin =>
      apply akin.neg.bind
      intro negated other negatedAkin
      exact .ok (.rotation symbols negatedAkin)
  | measurement symbols negative => exact .ok (.measurement symbols !negative)

theorem withSymbols (akin : left.Akin right) (symbols : PauliString) :
    Akin { left with symbols := symbols } { right with symbols := symbols } := by
  cases akin with
  | rotation _ akin => exact .rotation symbols akin
  | measurement _ negative => exact .measurement symbols negative

/-- Behind a quarter rotation, whose product and direction are all that matters. -/
theorem behindQuarter (akin : left.Akin right) (symbols : PauliString) {angle other : Angle}
    (quarters : angle.Akin other) :
    Agree Eq Akin (left.behindQuarter (Block.rotation symbols angle) angle)
      (right.behindQuarter (Block.rotation symbols other) other) := by
  have sameSymbols : left.symbols = right.symbols := by cases akin <;> rfl
  rw [Block.behindQuarter, Block.behindQuarter]
  simp only [productsCommute, Block.rotation, sameSymbols, quarters.isNegative_eq]
  apply Agree.ite (fun _ => .ok akin)
  intro _
  apply Agree.ite (fun _ => .error rfl)
  intro _
  exact Agree.ite (fun _ => (akin.withSymbols _).flipSign) (fun _ => .ok (akin.withSymbols _))

end Akin

/-! ## Basic form -/

/-- Two rotations have angles that split alike. -/
def SplitsAlike (left right : Block) : Prop :=
  ∀ angle other, left.kind = .rotation angle → right.kind = .rotation other →
    angle.SplitsAlike other

theorem splitsAlike_rotation (symbols : PauliString) {angle other : Angle}
    (alike : angle.SplitsAlike other) :
    SplitsAlike (rotation symbols angle) (rotation symbols other) := by
  rintro _ _ ⟨⟩ ⟨⟩
  exact alike

theorem splitsAlike_measurement (symbols : PauliString) (negative : Bool) :
    SplitsAlike (measurement symbols negative) right := by
  intro angle other isRotation
  cases isRotation

theorem agree_approximate (table : ApproximationTable) (symbols : PauliString)
    {angle other : Angle} (reduced : angle.normalized = other.normalized) :
    Agree (Failure.SameKind CircuitError.kind) (List.Forall₂ Akin)
      (approximate table.approximator symbols angle)
      (approximate table.approximator symbols other) := by
  have sameLookup : table.approximator angle = table.approximator other := by
    rw [ApproximationTable.approximator, ApproximationTable.lookup, ApproximationTable.lookup,
      reduced]
  rw [approximate, approximate]
  cases singleAxis? symbols with
  | none => exact .error (.refused rfl)
  | some found =>
      simp only [sameLookup, liftM_eq_ofFaulty]
      cases table.approximator other with
      | error fault => exact .error (.fault fault)
      | ok answer =>
          cases answer with
          | none => exact .error (.refused rfl)
          | some gates => exact .ok (forall₂_akin_self _)

theorem Akin.basicForm (table : ApproximationTable) (akin : left.Akin right)
    (alike : left.SplitsAlike right) :
    Agree (Failure.SameKind CircuitError.kind) (List.Forall₂ Akin)
      (left.basicForm table.approximator) (right.basicForm table.approximator) := by
  have same (attempt : Result CircuitError (List Block)) :
      Agree (Failure.SameKind CircuitError.kind) (List.Forall₂ Akin) attempt attempt :=
    .refl (.refl _) forall₂_akin_self attempt
  cases akin with
  | measurement symbols negative => exact same _
  | @rotation symbols angle other akin =>
      cases akin with
      | inl equal =>
          rw [equal]
          exact same _
      | inr regular =>
          have related : Akin (Block.rotation symbols angle) (Block.rotation symbols other) :=
            .rotation symbols (.inr regular)
          rcases regular with ⟨leftRegular, rightRegular, sameValue⟩
          have sameBasic : decide other.IsBasic = decide angle.IsBasic := by
            have valueEq : angle.value = other.value := sameValue
            rw [decide_eq_decide, Angle.IsBasic, Angle.IsBasic, valueEq]
          simp only [Block.basicForm, Block.rotation, leftRegular.isBasic_eq,
            rightRegular.isBasic_eq, sameBasic, liftM_eq_ofFaulty, ofFaulty_ok, ok_bind]
          apply Agree.ite (fun _ => .ok (.cons related .nil))
          intro notBasic
          rw [decide_eq_true_eq] at notBasic
          rcases alike angle other rfl rfl with equal | basic | ⟨sameDyadic, leftSmall, rightSmall⟩
          · rw [equal]
            exact same _
          · exact absurd basic notBasic
          -- Both are split into the same terms, or both are looked up under the same angle.
          · by_cases dyadic : angle.IsDyadic
            · rcases dyadic.exists_dyadicTerms with ⟨terms, split⟩
              rw [← Angle.dyadicTerms_congr dyadic (sameDyadic.mp dyadic) sameValue, split]
              exact same _
            · rw [Angle.dyadicTerms_of_not_isDyadic dyadic,
                Angle.dyadicTerms_of_not_isDyadic (mt sameDyadic.mpr dyadic)]
              exact agree_approximate table symbols (Angle.normalized_congr leftRegular.denom_pos
                rightRegular.denom_pos leftSmall rightSmall sameValue)

end Block

/-! ## Lowering -/

namespace TableDraft

variable {supply : IdSupply} {qubits : List PatchId} {draft : TableDraft}

theorem agree_addRotation {angle other : Angle} (akin : angle.Akin other) (index : Nat)
    (targets : Targets) :
    Agree (Failure.SameKind TableError.kind) Eq
      (draft.addRotation supply index targets angle)
      (draft.addRotation supply index targets other) := by
  simp only [addRotation, Angle.isHalf, Angle.isQuarter, Angle.isEighth, akin.hasMagnitude_eq,
    akin.isNegative_eq, liftM_eq_ofFaulty]
  apply (agree_self _ _).bind
  rintro isHalf _ rfl
  apply Agree.ite (fun _ => .ok rfl)
  intro _
  apply (agree_self _ _).bind
  rintro isQuarter _ rfl
  apply Agree.ite (fun _ => .ok rfl)
  intro _
  apply (agree_self _ _).bind
  rintro isEighth _ rfl
  exact Agree.ite (fun _ => .ok rfl) (fun _ => .error (.refused rfl))

theorem agree_addBlock {left right : Block} (akin : left.Akin right) (index : Nat) :
    Agree (Failure.SameKind TableError.kind) Eq (addBlock supply qubits draft (left, index))
      (addBlock supply qubits draft (right, index)) := by
  cases akin with
  | measurement symbols negative => exact agree_self _ _
  | @rotation symbols angle other akin =>
      rw [addBlock, addBlock]
      apply Agree.ite (fun _ => .error (.refused rfl))
      intro _
      apply (agree_self _ _).bind
      rintro targets _ rfl
      exact Agree.ite (fun _ => agree_self _ _) (fun _ => agree_addRotation akin index targets)

end TableDraft

/-! ## Circuits -/

namespace Circuit

/-- Circuits over the same qubits whose blocks are akin. -/
structure Akin (left right : Circuit) : Prop where
  qubits_eq : left.qubits = right.qubits
  blocks : List.Forall₂ Block.Akin left.blocks right.blocks

theorem agree_absorbQuarters {lefts rights : List Block}
    (akin : List.Forall₂ Block.Akin lefts rights) :
    Agree Eq (List.Forall₂ Block.Akin) (absorbQuarters lefts) (absorbQuarters rights) := by
  induction akin with
  | nil => exact .ok .nil
  | cons head _ induction =>
      apply induction.bind
      intro absorbed others rest
      cases head with
      | measurement symbols negative => exact .ok (.cons (.measurement symbols negative) rest)
      | @rotation symbols angle other akin =>
          have sameTest : angle.isQuarter = other.isQuarter := akin.hasMagnitude_eq _
          dsimp only [Block.rotation]
          rw [sameTest]
          apply (Agree.refl (fun _ => rfl) (fun _ => rfl) other.isQuarter).bind
          rintro isQuarter _ rfl
          apply Agree.ite
          · exact fun _ =>
              .mapM (fun next moved nextAkin => nextAkin.behindQuarter symbols akin) rest
          · exact fun _ => .ok (.cons (.rotation symbols akin) rest)

variable {left right : Circuit}

namespace Akin

theorem hasMeasurement_eq (akin : left.Akin right) :
    left.hasMeasurement = right.hasMeasurement := by
  have tests : left.blocks.map Block.isMeasurement = right.blocks.map Block.isMeasurement :=
    map_eq_of_forall₂ (fun _ _ blocks => blocks.isMeasurement_eq) akin.blocks
  have searched := congrArg (List.any · id) tests
  rwa [List.any_map, List.any_map] at searched

theorem litinski (akin : left.Akin right) :
    Agree (Failure.SameKind CircuitError.kind) Akin left.litinski right.litinski := by
  have tested : Agree Eq (List.Forall₂ Eq) (left.blocks.mapM Block.isQuarterRotation)
      (right.blocks.mapM Block.isQuarterRotation) := by
    apply Agree.mapM _ akin.blocks
    intro block other blocks
    rw [blocks.isQuarterRotation_eq]
    exact .refl (fun _ => rfl) (fun _ => rfl) _
  rw [litinski_eq, litinski_eq, akin.hasMeasurement_eq]
  apply (tested.ofFaulty .fault).bind
  intro quarters others same
  rw [List.forall₂_eq_eq_eq] at same
  rw [same]
  apply Agree.ite _ (fun _ => .ok akin)
  intro _
  apply Agree.ite _ (fun _ => .error (.refused rfl))
  intro _
  apply ((agree_absorbQuarters akin.blocks).ofFaulty .fault).bind
  intro absorbed others related
  exact .ok ⟨akin.qubits_eq, related⟩

theorem basicForm (table : ApproximationTable) (akin : left.Akin right)
    (alike : List.Forall₂ Block.SplitsAlike left.blocks right.blocks) :
    Agree (Failure.SameKind CircuitError.kind) Akin (left.basicForm table.approximator)
      (right.basicForm table.approximator) := by
  apply (Agree.mapM (fun _ _ both => both.1.basicForm table both.2)
    (forall₂_and akin.blocks alike)).bind
  intro parts others related
  exact .ok ⟨akin.qubits_eq, List.rel_flatten related⟩

theorem ofCircuit (supply : IdSupply) (akin : left.Akin right) :
    Agree (Failure.SameKind TableError.kind) Eq (OperationTable.ofCircuit supply left)
      (OperationTable.ofCircuit supply right) := by
  rw [OperationTable.ofCircuit, OperationTable.ofCircuit, akin.qubits_eq]
  apply (agree_self _ _).bind
  rintro _ _ rfl
  have step : ∀ before after (entry other : Block × Nat), before = after →
      entry.1.Akin other.1 ∧ entry.2 = other.2 →
      Agree (Failure.SameKind TableError.kind) Eq
        (TableDraft.addBlock supply ((List.range right.qubits).map supply) before entry)
        (TableDraft.addBlock supply ((List.range right.qubits).map supply) after other) := by
    rintro before _ ⟨block, index⟩ ⟨other, _⟩ rfl ⟨blocks, rfl⟩
    exact TableDraft.agree_addBlock blocks index
  apply (Agree.foldlM step (forall₂_zipIdx akin.blocks 0) rfl).bind
  rintro draft _ rfl
  exact .ok rfl

end Akin

/-- Comparison finds the circuits equal. -/
structure Compares (left right : Circuit) : Prop where
  qubits_eq : left.qubits = right.qubits
  blocks : List.Forall₂ Block.Compares left.blocks right.blocks

theorem Akin.compares (akin : left.Akin right) : left.Compares right :=
  ⟨akin.qubits_eq, akin.blocks.imp fun _ _ => Block.Akin.compares⟩

theorem Compares.checkedYFree (compared : left.Compares right) :
    Agree Eq Compares left.checkedYFree right.checkedYFree := by
  rw [checkedYFree_eq, checkedYFree_eq]
  exact .ok ⟨compared.qubits_eq,
    List.rel_flatMap compared.blocks fun _ _ blocks => blocks.yFree⟩

end Circuit

/-! ## Equal behaviour -/

namespace Block

/-- What is made of blocks and circuits that compare equal compares equal again, or both fail for
a reason of the same kind. This holds without a condition for removing Y, and for regular angles
for everything else. For basic forms the angles also have to split alike. Angles in lowest terms
compare equal only if they are the same. -/
theorem agree_of_matches (block other : Block) (left right : Circuit) :
    (block.Compares other →
      Agree Eq (List.Forall₂ Compares) block.checkedYFree other.checkedYFree ∧
      ((∀ angle, block.kind = .rotation angle → angle.Lowest) →
        (∀ angle, other.kind = .rotation angle → angle.Lowest) → block = other)) ∧
    (block.Matches other →
      block.isQuarterRotation = other.isQuarterRotation ∧
      Agree Eq Compares block.flipSign other.flipSign ∧
      (block.SplitsAlike other → ∀ table : ApproximationTable,
        Agree (Failure.SameKind CircuitError.kind) (List.Forall₂ Compares)
          (block.basicForm table.approximator) (other.basicForm table.approximator))) ∧
    (left.Compares right →
      Agree Eq Circuit.Compares left.checkedYFree right.checkedYFree) ∧
    (left.qubits = right.qubits → List.Forall₂ Matches left.blocks right.blocks →
      Agree (Failure.SameKind CircuitError.kind) Circuit.Compares left.litinski right.litinski ∧
      (∀ supply, Agree (Failure.SameKind TableError.kind) Eq
        (OperationTable.ofCircuit supply left) (OperationTable.ofCircuit supply right)) ∧
      (List.Forall₂ SplitsAlike left.blocks right.blocks → ∀ table : ApproximationTable,
        Agree (Failure.SameKind CircuitError.kind) Circuit.Compares
          (left.basicForm table.approximator) (right.basicForm table.approximator))) := by
  refine ⟨fun compared => ⟨?_, eq_of_compares compared⟩, fun matching => ?_,
    Circuit.Compares.checkedYFree, fun qubits matching => ?_⟩
  · rw [checkedYFree_eq, checkedYFree_eq]
    exact .ok compared.yFree
  · have akin := matching.akin
    exact ⟨akin.isQuarterRotation_eq, akin.flipSign.imp fun _ _ => Akin.compares,
      fun alike table => (akin.basicForm table alike).imp fun _ _ blocks =>
        blocks.imp fun _ _ => Akin.compares⟩
  · have akin : left.Akin right := ⟨qubits, matching.imp fun _ _ => Matches.akin⟩
    exact ⟨akin.litinski.imp fun _ _ => Circuit.Akin.compares, akin.ofCircuit,
      fun alike table => (akin.basicForm table alike).imp fun _ _ => Circuit.Akin.compares⟩

/-- Blocks and circuits with unreduced and with reduced angles. -/
theorem agree_sixSixteenths :
    let block : Block := .rotation [.X] { numer := 6, denom := 16 }
    let other : Block := .rotation [.X] { numer := 3, denom := 8 }
    let left : Circuit := ⟨1, [.rotation [.Z] { numer := 2, denom := 8 }, block,
      .measurement [.Z] false]⟩
    let right : Circuit := ⟨1, [.rotation [.Z] .quarter, other, .measurement [.Z] false]⟩
    block ≠ other ∧ Agree Eq Compares block.flipSign other.flipSign ∧
      Agree Eq (List.Forall₂ Compares) block.checkedYFree other.checkedYFree ∧
      Agree (Failure.SameKind CircuitError.kind) Circuit.Compares left.litinski right.litinski ∧
      Agree (Failure.SameKind CircuitError.kind) Circuit.Compares
        (left.basicForm ApproximationTable.empty.approximator)
        (right.basicForm ApproximationTable.empty.approximator) := by
  intro block other left right
  have matching : block.Matches other := ⟨by decide +kernel, .inr (by decide)⟩
  have each : List.Forall₂ Matches left.blocks right.blocks :=
    .cons ⟨by decide +kernel, .inr (by decide)⟩ (.cons matching (.cons ⟨rfl, .inl rfl⟩ .nil))
  have alike : List.Forall₂ SplitsAlike left.blocks right.blocks :=
    .cons (splitsAlike_rotation [.Z] (by decide +kernel))
      (.cons (splitsAlike_rotation [.X] (by decide +kernel))
        (.cons (splitsAlike_measurement [.Z] false) .nil))
  rcases agree_of_matches block other left right with ⟨compared, matched, _, circuits⟩
  rcases circuits rfl each with ⟨transformed, _, basic⟩
  exact ⟨by decide, (matched matching).2.1, (compared matching.compared).1, transformed,
    basic alike .empty⟩

/-- Comparison finds each of these pairs equal. A negative denominator hides a quarter rotation,
the least numerator has no opposite, nine over twenty-four does not split, and a large denominator
keeps minus one third from being found under its normalized angle. -/
theorem compares_without_agreement :
    (Compares (rotation [.Z] { numer := -1, denom := -4 }) (rotation [.Z] .quarter) ∧
      isQuarterRotation (rotation [.Z] { numer := -1, denom := -4 }) = .ok false ∧
      isQuarterRotation (rotation [.Z] .quarter) = .ok true) ∧
    (Compares (rotation [.Z] { numer := -9223372036854775808, denom := 2 })
        (rotation [.Z] { numer := -4611686018427387904, denom := 1 }) ∧
      flipSign (rotation [.Z] { numer := -9223372036854775808, denom := 2 }) = .error .overflow ∧
      flipSign (rotation [.Z] { numer := -4611686018427387904, denom := 1 }) =
        .ok (rotation [.Z] { numer := 4611686018427387904, denom := 1 })) ∧
    (Compares (rotation [.Z] { numer := 9, denom := 24 })
        (rotation [.Z] { numer := 3, denom := 8 }) ∧
      basicForm ApproximationTable.empty.approximator
          (rotation [.Z] { numer := 9, denom := 24 }) =
        Result.refuse (.unsupportedAngle { numer := 9, denom := 24 } .noSequence) ∧
      basicForm ApproximationTable.empty.approximator
          (rotation [.Z] { numer := 3, denom := 8 }) =
        .ok [rotation [.Z] .quarter, rotation [.Z] .eighth]) ∧
    (Compares (rotation [.Z] { numer := -3000000000000000000, denom := 9000000000000000000 })
        (rotation [.Z] { numer := -1, denom := 3 }) ∧
      basicForm (ApproximationTable.approximator ⟨[({ numer := 5, denom := 3 }, [.X])]⟩)
          (rotation [.Z] { numer := -3000000000000000000, denom := 9000000000000000000 }) =
        Result.refuse (.unsupportedAngle
          { numer := -3000000000000000000, denom := 9000000000000000000 } .noSequence) ∧
      basicForm (ApproximationTable.approximator ⟨[({ numer := 5, denom := 3 }, [.X])]⟩)
          (rotation [.Z] { numer := -1, denom := 3 }) =
        .ok [rotation [.X] .half]) := by
  decide +kernel

end Block

end LatticeSurgery
