import LatticeSurgery.Proofs.Operation.Lowering

namespace LatticeSurgery

/-! # References

Conditions refer to operations by their positions. In the table of a circuit they
refer to earlier measurements only, so whether an operation runs is decided by the
operations before it. -/

/-- A measurement stands at the position. -/
def MeasuredAt (operations : List Operation) (position : Nat) : Prop :=
  ∃ operation, operations[position]? = some operation ∧ operation.kind.isMeasurement = true

theorem MeasuredAt.lt_length {operations : List Operation} {position : Nat}
    (measured : MeasuredAt operations position) : position < operations.length := by
  rcases measured with ⟨_, found, _⟩
  exact (List.getElem?_eq_some_iff.mp found).1

theorem MeasuredAt.append {operations : List Operation} {position : Nat}
    (measured : MeasuredAt operations position) (added : List Operation) :
    MeasuredAt (operations ++ added) position := by
  rcases measured with ⟨operation, found, isMeasurement⟩
  refine ⟨operation, ?_, isMeasurement⟩
  rw [List.getElem?_append_left (List.getElem?_eq_some_iff.mp found).1, found]

theorem measuredAt_add {operations added : List Operation} {offset : Nat} {operation : Operation}
    (found : added[offset]? = some operation)
    (isMeasurement : operation.kind.isMeasurement = true) :
    MeasuredAt (operations ++ added) (operations.length + offset) := by
  refine ⟨operation, ?_, isMeasurement⟩
  rw [List.getElem?_append_right (Nat.le_add_right _ _), Nat.add_sub_cancel_left, found]

/-- Every operation reads earlier measurements only. -/
def ReadsEarlier (operations : List Operation) : Prop :=
  ∀ index operation, operations[index]? = some operation →
    ∀ read ∈ operation.reads, read < index ∧ MeasuredAt operations read

/-- Every operation reads operations before it. -/
def ReadsBack (operations : List Operation) : Prop :=
  ∀ (index : Nat) (operation : Operation), operations[index]? = some operation →
    ∀ read ∈ operation.reads, read < index

namespace ReadsEarlier

variable {operations : List Operation}

theorem readsBack (earlier : ReadsEarlier operations) : ReadsBack operations :=
  fun index operation found read member => (earlier index operation found read member).1

theorem append (earlier : ReadsEarlier operations) {added : List Operation}
    (measured : ∀ operation ∈ added, ∀ read ∈ operation.reads, MeasuredAt operations read) :
    ReadsEarlier (operations ++ added) := by
  intro index operation found read member
  by_cases inside : index < operations.length
  · rw [List.getElem?_append_left inside] at found
    have before := earlier index operation found read member
    exact ⟨before.1, before.2.append added⟩
  · rw [List.getElem?_append_right (Nat.le_of_not_lt inside)] at found
    have before := measured operation (List.mem_of_getElem? found) read member
    exact ⟨Nat.lt_of_lt_of_le before.lt_length (Nat.le_of_not_lt inside), before.append added⟩

end ReadsEarlier

namespace Gadget

variable {operations : List Operation} {condition : Option Condition}

private theorem reads_pending {kind : OperationKind} {read : Nat}
    (member : read ∈ (Operation.pending kind condition).reads) :
    ∃ given, condition = some given ∧ read ∈ given.reads := by
  cases condition with
  | none => cases member
  | some given => exact ⟨given, rfl, member⟩

private theorem unconditional (given : Condition) (same : (none : Option Condition) = some given) :
    ∀ read ∈ given.reads, MeasuredAt operations read := by
  cases same

private theorem measuredAt_of_pending
    (measured : ∀ given, condition = some given → ∀ read ∈ given.reads, MeasuredAt operations read)
    (kinds : List OperationKind) :
    ∀ operation ∈ kinds.map fun kind => Operation.pending kind condition,
      ∀ read ∈ operation.reads, MeasuredAt operations read := by
  intro operation member read readMember
  rcases List.mem_map.mp member with ⟨kind, _, rfl⟩
  rcases reads_pending readMember with ⟨given, same, readMember⟩
  exact measured given same read readMember

theorem half_eq_map (targets : Targets) (condition : Option Condition) :
    half targets condition =
      (targets.map fun (patch, operator) => OperationKind.pauli patch operator).map fun kind =>
        Operation.pending kind condition := by
  rw [half, List.map_map]
  rfl

private theorem readsEarlier_quarter (earlier : ReadsEarlier operations) (ancilla : PatchId)
    (targets : Targets) (negative : Bool) (condition : Option Condition)
    (measured : ∀ given, condition = some given →
      ∀ read ∈ given.reads, MeasuredAt operations read) :
    ReadsEarlier (operations ++
      quarter operations.length ancilla targets negative condition) := by
  rw [quarter, ← List.append_assoc, half_eq_map]
  apply (earlier.append (measuredAt_of_pending measured [.prepare ancilla .yPlus,
    mergeWith targets ancilla, .measureSingle ancilla .X false])).append
  apply measuredAt_of_pending
  intro given same read member
  cases same
  rcases List.mem_pair.mp member with rfl | rfl
  · exact measuredAt_add rfl rfl
  · exact measuredAt_add rfl rfl

/-- An eighth rotation merges its targets with the magic state, corrects the merge, and
measures the magic state to correct once more. -/
theorem append_eighth (operations : List Operation) (magic ancilla : PatchId) (targets : Targets)
    (negative : Bool) :
    let merged := operations ++ [.pending (.requestMagic magic) none,
      .pending (mergeWith targets magic) none]
    let corrected := merged ++ quarter merged.length ancilla targets false
      (some (.eighthFirstCorrection (operations.length + 1) negative))
    operations ++ eighth operations.length magic ancilla targets negative none =
      (corrected ++ [.pending (.measureSingle magic .X false) none]) ++
        half targets (some (.eighthSecondCorrection corrected.length)) := by
  intro merged corrected
  have mergedLength : merged.length = operations.length + 2 := List.length_append
  have correctedLength : corrected.length = operations.length + 2 +
      (quarter (operations.length + 2) ancilla targets false
        (some (.eighthFirstCorrection (operations.length + 1) negative))).length := by
    rw [← mergedLength]
    exact List.length_append
  simp only [eighth, ← correctedLength]
  simp [corrected, merged, mergedLength]

private theorem readsEarlier_eighth (earlier : ReadsEarlier operations) (magic ancilla : PatchId)
    (targets : Targets) (negative : Bool) :
    ReadsEarlier (operations ++
      eighth operations.length magic ancilla targets negative none) := by
  have merged := earlier.append (measuredAt_of_pending unconditional
    [.requestMagic magic, mergeWith targets magic])
  have corrected := readsEarlier_quarter merged ancilla targets false
    (some (.eighthFirstCorrection (operations.length + 1) negative)) (by
      intro given same read member
      cases same
      rw [List.mem_singleton.mp member]
      exact measuredAt_add rfl rfl)
  rw [append_eighth, half_eq_map]
  apply (corrected.append
    (measuredAt_of_pending unconditional [.measureSingle magic .X false])).append
  apply measuredAt_of_pending
  intro given same read member
  cases same
  rw [List.mem_singleton.mp member]
  exact ⟨_, List.getElem?_concat_length, rfl⟩

/-- A gadget reads the outcomes of its own measurements. -/
theorem readsEarlier_of_replaces {supply : IdSupply} {used added : Nat} {targets : Targets}
    {kind : BlockKind} {gadget : List Operation} (earlier : ReadsEarlier operations)
    (replaces : Replaces supply operations.length used targets kind gadget added) :
    ReadsEarlier (operations ++ gadget) := by
  cases replaces with
  | single => exact earlier.append (measuredAt_of_pending unconditional [.measureSingle _ _ _])
  | joint => exact earlier.append (measuredAt_of_pending unconditional [.measureJoint _ _])
  | identity => exact earlier.append (measuredAt_of_pending unconditional [])
  | half =>
      rw [half_eq_map]
      exact earlier.append (measuredAt_of_pending unconditional _)
  | quarter => exact readsEarlier_quarter earlier _ _ _ none unconditional
  | eighth => exact readsEarlier_eighth earlier _ _ _ _

end Gadget

namespace OperationTable

theorem readsEarlier_of_ofCircuit {supply : IdSupply} {circuit : Circuit} {table : OperationTable}
    (made : ofCircuit supply circuit = .ok table) : ReadsEarlier table.operations := by
  have start : ReadsEarlier (emptyDraft circuit).operations := by
    intro index operation found
    cases found
  rcases ofCircuit_induction (fun draft => ReadsEarlier draft.operations) start
    (fun _ _ _ _ _ _ earlier _ _ replaces => Gadget.readsEarlier_of_replaces earlier replaces) made
    with ⟨draft, earlier, rfl⟩
  exact earlier

end OperationTable

end LatticeSurgery
