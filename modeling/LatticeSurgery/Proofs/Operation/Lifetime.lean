import LatticeSurgery.Proofs.Operation.Running

namespace LatticeSurgery

open Result

/-! # Lifetimes of patches

A gadget introduces patches of its own. Each of them is introduced, merged with the targets and
measured, all under one condition, and no other operation of the table touches it. -/

/-- The patch that an operation introduces. -/
def OperationKind.introduces? : OperationKind → Option PatchId
  | .prepare patch _ | .requestMagic patch => some patch
  | _ => none

def Operation.touches (patch : PatchId) (operation : Operation) : Bool :=
  patch ∈ operation.kind.patches

/-- The operations that touch the patch are its introduction, a joint measurement that ends with
the patch, and a measurement of the patch alone. They share their condition. -/
def HasLifetime (operations : List Operation) (patch : PatchId) : Prop :=
  ∃ introduction targets jointSign sign condition,
    introduction.introduces? = some patch ∧ patch ∉ targets.map Prod.fst ∧
      operations.filter (Operation.touches patch) =
        [.pending introduction condition,
          .pending (.measureJoint (targets ++ [(patch, .Z)]) jointSign) condition,
          .pending (.measureSingle patch .X sign) condition]

/-! ## Operations that touch a patch -/

/-- Some operation touches the patch. -/
def Touched (operations : List Operation) (patch : PatchId) : Prop :=
  ∃ operation ∈ operations, patch ∈ operation.kind.patches

variable {patch : PatchId} {operations : List Operation}

@[simp] theorem touched_nil : ¬ Touched [] patch := by
  simp [Touched]

@[simp] theorem touched_cons {operation : Operation} {rest : List Operation} :
    Touched (operation :: rest) patch ↔
      patch ∈ operation.kind.patches ∨ Touched rest patch := by
  simp [Touched]

@[simp] theorem touched_append {first second : List Operation} :
    Touched (first ++ second) patch ↔ Touched first patch ∨ Touched second patch := by
  simp [Touched, or_and_right, exists_or]

theorem filter_touches_eq_nil (untouched : ¬ Touched operations patch) :
    operations.filter (Operation.touches patch) = [] := by
  apply List.filter_eq_nil_iff.mpr
  intro operation member touches
  exact untouched ⟨operation, member, of_decide_eq_true touches⟩

/-- Operations that leave a patch alone do not count for its lifetime. -/
theorem HasLifetime.append {first second : List Operation} (untouched : ¬ Touched first patch)
    (lifetime : HasLifetime second patch) : HasLifetime (first ++ second) patch := by
  rw [HasLifetime, List.filter_append, filter_touches_eq_nil untouched, List.nil_append]
  exact lifetime

theorem HasLifetime.append_of_untouched {first second : List Operation}
    (lifetime : HasLifetime first patch) (untouched : ¬ Touched second patch) :
    HasLifetime (first ++ second) patch := by
  rw [HasLifetime, List.filter_append, filter_touches_eq_nil untouched, List.append_nil]
  exact lifetime

/-- Before a patch is touched by anything else, it is introduced. -/
theorem HasLifetime.introduced (lifetime : HasLifetime operations patch) {index : Nat}
    {operation : Operation} (found : operations[index]? = some operation)
    (touches : patch ∈ operation.kind.patches) :
    operation.kind.introduces? = some patch ∨ ∃ earlier < index, ∃ introduction,
      operations[earlier]? = some introduction ∧ introduction.kind.introduces? = some patch := by
  rcases lifetime with ⟨kind, targets, jointSign, sign, condition, introduces, _, filtered⟩
  rcases List.filter_eq_cons_iff.mp filtered with ⟨before, after, rfl, untouched, _, _⟩
  rcases Nat.lt_trichotomy index before.length with inside | rfl | later
  · rw [List.getElem?_append_left inside] at found
    exact absurd (decide_eq_true touches) (untouched operation (List.mem_of_getElem? found))
  · rw [List.getElem?_append_right (Nat.le_refl _), Nat.sub_self, List.getElem?_cons_zero,
      Option.some.injEq] at found
    rw [← found]
    exact .inl introduces
  · right
    refine ⟨before.length, later, .pending kind condition, ?_, introduces⟩
    rw [List.getElem?_append_right (Nat.le_refl _), Nat.sub_self, List.getElem?_cons_zero]

/-! ## Introductions -/

/-- The patches that operations introduce, in order. -/
def introductions (operations : List Operation) : List PatchId :=
  operations.filterMap fun operation => operation.kind.introduces?

@[simp] theorem introductions_append (first second : List Operation) :
    introductions (first ++ second) = introductions first ++ introductions second :=
  List.filterMap_append

theorem mem_introductions : patch ∈ introductions operations ↔
    ∃ operation ∈ operations, operation.kind.introduces? = some patch :=
  List.mem_filterMap

/-! ## Gadgets -/

namespace Gadget

variable {targets : Targets} {magic ancilla : PatchId} {negative : Bool}
  {condition : Option Condition} {base : Nat}

theorem touched_half : Touched (half targets condition) patch ↔ patch ∈ targets.map Prod.fst := by
  simp [Touched, half, Operation.pending, OperationKind.patches, eq_comm]

theorem touched_quarter : Touched (quarter base ancilla targets negative condition) patch ↔
    patch ∈ targets.map Prod.fst ∨ patch = ancilla := by
  simp only [quarter, touched_append, touched_cons, touched_half, mergeWith, Operation.pending,
    OperationKind.patches, List.map_append, List.map_cons, List.map_nil, List.mem_append,
    List.mem_singleton, touched_nil]
  tauto

theorem touched_eighth : Touched (eighth base magic ancilla targets negative condition) patch ↔
    patch ∈ targets.map Prod.fst ∨ patch = magic ∨ patch = ancilla := by
  simp only [eighth, touched_append, touched_cons, touched_half, touched_quarter, mergeWith,
    Operation.pending, OperationKind.patches, List.map_append, List.map_cons, List.map_nil,
    List.mem_append, List.mem_singleton, touched_nil]
  tauto

theorem introductions_half : introductions (half targets condition) = [] := by
  simp [introductions, half, Operation.pending, OperationKind.introduces?]

theorem introductions_quarter :
    introductions (quarter base ancilla targets negative condition) = [ancilla] := by
  rw [quarter, introductions_append, introductions_half]
  rfl

theorem introductions_eighth :
    introductions (eighth base magic ancilla targets negative condition) = [magic, ancilla] := by
  rw [eighth, introductions_append, introductions_append, introductions_quarter]
  exact congrArg ([magic, ancilla] ++ ·) introductions_half

/-- The ancilla of a quarter rotation. -/
theorem lifetime_quarter (elsewhere : ancilla ∉ targets.map Prod.fst) :
    HasLifetime (quarter base ancilla targets negative condition) ancilla := by
  apply HasLifetime.append_of_untouched _ (touched_half.not.mpr elsewhere)
  refine ⟨.prepare ancilla .yPlus, targets, false, false, condition, rfl, elsewhere, ?_⟩
  simp [Operation.touches, Operation.pending, OperationKind.patches, mergeWith]

/-- The ancilla of the correction of an eighth rotation. -/
theorem lifetime_eighth_ancilla (elsewhere : ancilla ∉ targets.map Prod.fst)
    (different : ancilla ≠ magic) :
    HasLifetime (eighth base magic ancilla targets negative condition) ancilla := by
  have merging : ¬ Touched [.pending (.requestMagic magic) condition,
      .pending (mergeWith targets magic) condition] ancilla := by
    simpa [Operation.pending, OperationKind.patches, mergeWith, different] using elsewhere
  rw [eighth]
  apply ((lifetime_quarter elsewhere).append merging).append_of_untouched
  rw [touched_cons, touched_half]
  simpa [Operation.pending, OperationKind.patches, different] using elsewhere

/-- The magic state of an eighth rotation. The correction in between leaves it alone. -/
theorem lifetime_eighth_magic (elsewhere : magic ∉ targets.map Prod.fst)
    (different : magic ≠ ancilla) :
    HasLifetime (eighth base magic ancilla targets negative condition) magic := by
  have corrections {start : Nat} {given : Option Condition} :
      (quarter start ancilla targets false given).filter (Operation.touches magic) = [] :=
    filter_touches_eq_nil (touched_quarter.not.mpr (not_or.mpr ⟨elsewhere, different⟩))
  have paulis {given : Option Condition} :
      (half targets given).filter (Operation.touches magic) = [] :=
    filter_touches_eq_nil (touched_half.not.mpr elsewhere)
  refine ⟨.requestMagic magic, targets, false, false, condition, rfl, elsewhere, ?_⟩
  simp only [eighth, List.filter_append, List.filter_cons, corrections, paulis]
  simp [Operation.touches, Operation.pending, OperationKind.patches, mergeWith]

variable {supply : IdSupply} {used fresh : Nat} {kind : BlockKind} {gadget : List Operation}

/-- A gadget touches its targets and the patches that it takes from the supply. -/
theorem touched_of_replaces (replaces : Replaces supply base used targets kind gadget fresh)
    (touched : Touched gadget patch) : patch ∈ targets.map Prod.fst ∨
      ∃ index, used ≤ index ∧ index < used + fresh ∧ patch = supply index := by
  cases replaces with
  | single only =>
      left
      simpa [only, Operation.pending, OperationKind.patches] using touched
  | joint several =>
      left
      simpa [Operation.pending, OperationKind.patches] using touched
  | identity empty => exact absurd touched touched_nil
  | half acts size => exact .inl (touched_half.mp touched)
  | quarter acts size =>
      apply (touched_quarter.mp touched).imp_right
      intro same
      exact ⟨used, Nat.le_refl _, by omega, same⟩
  | eighth acts size =>
      apply (touched_eighth.mp touched).imp_right
      rintro (same | same)
      · exact ⟨used, Nat.le_refl _, by omega, same⟩
      · exact ⟨used + 1, by omega, by omega, same⟩

/-- A gadget introduces the patches that it takes from the supply. -/
theorem introductions_of_replaces
    (replaces : Replaces supply base used targets kind gadget fresh) :
    introductions gadget = (List.range' used fresh).map supply := by
  cases replaces with
  | single | joint | identity => rfl
  | half acts size => exact introductions_half
  | quarter acts size => exact introductions_quarter
  | eighth acts size => exact introductions_eighth

/-- The patches that a gadget takes from the supply have a lifetime in it. -/
theorem lifetime_of_replaces (injective : Function.Injective supply)
    (replaces : Replaces supply base used targets kind gadget fresh)
    (elsewhere : ∀ index, used ≤ index → supply index ∉ targets.map Prod.fst) {index : Nat}
    (lower : used ≤ index) (upper : index < used + fresh) : HasLifetime gadget (supply index) := by
  cases replaces with
  | single | joint | identity | half => omega
  | quarter acts size =>
      have same : index = used := by omega
      subst same
      exact lifetime_quarter (elsewhere index lower)
  | eighth acts size =>
      have different : supply used ≠ supply (used + 1) := fun same => by
        have := injective same
        omega
      rcases Nat.eq_or_lt_of_le lower with rfl | later
      · exact lifetime_eighth_magic (elsewhere used lower) different
      · have same : index = used + 1 := by omega
        subst same
        exact lifetime_eighth_ancilla (elsewhere (used + 1) lower) different.symm

end Gadget

namespace OperationTable

variable {supply : IdSupply} {circuit : Circuit} {table : OperationTable}

/-- The bookkeeping of fresh patches in a table under construction. -/
structure Ledger (supply : IdSupply) (circuit : Circuit) (draft : TableDraft) : Prop where
  qubits_le : circuit.qubits ≤ draft.used
  /-- Only logical qubits and patches that have been taken from the supply are touched. -/
  known : ∀ patch, Touched draft.operations patch → patch ∈ registerOf supply circuit ∨
    ∃ index, circuit.qubits ≤ index ∧ index < draft.used ∧ patch = supply index
  introductions : introductions draft.operations =
    (List.range' circuit.qubits (draft.used - circuit.qubits)).map supply
  lifetime : ∀ index, circuit.qubits ≤ index → index < draft.used →
    HasLifetime draft.operations (supply index)

theorem ledger_emptyDraft : Ledger supply circuit (emptyDraft circuit) where
  qubits_le := Nat.le_refl _
  known _ touched := absurd touched touched_nil
  introductions := by simp [emptyDraft, LatticeSurgery.introductions]
  lifetime _ lower upper := absurd upper (Nat.not_lt_of_le lower)

theorem Ledger.append (injective : Function.Injective supply) {draft : TableDraft}
    (ledger : Ledger supply circuit draft) {targets : Targets} {kind : BlockKind}
    {gadget : List Operation} {fresh : Nat}
    (logical : ∀ patch ∈ targets.map Prod.fst, patch ∈ registerOf supply circuit)
    (replaces : Gadget.Replaces supply draft.operations.length draft.used targets kind gadget
      fresh) :
    Ledger supply circuit (draft.append gadget fresh) := by
  have qubits_le := ledger.qubits_le
  -- A patch of the supply is touched by the gadget that takes it and by no other.
  have elsewhere : ∀ index, draft.used ≤ index → supply index ∉ targets.map Prod.fst := by
    intro index later member
    exact not_mem_registerOf injective (Nat.le_trans qubits_le later) (logical _ member)
  constructor
  case qubits_le => exact Nat.le_trans qubits_le (Nat.le_add_right _ _)
  case known =>
    intro patch touched
    rcases touched_append.mp touched with before | added
    · apply (ledger.known patch before).imp_right
      rintro ⟨index, lower, upper, same⟩
      exact ⟨index, lower, Nat.lt_of_lt_of_le upper (Nat.le_add_right _ _), same⟩
    · apply (Gadget.touched_of_replaces replaces added).imp (logical patch)
      rintro ⟨index, lower, upper, same⟩
      exact ⟨index, Nat.le_trans qubits_le lower, upper, same⟩
  case introductions =>
    have count : draft.used + fresh - circuit.qubits = draft.used - circuit.qubits + fresh := by
      omega
    have next : draft.used = circuit.qubits + (draft.used - circuit.qubits) := by omega
    rw [TableDraft.append, introductions_append, ledger.introductions,
      Gadget.introductions_of_replaces replaces, ← List.map_append, count]
    nth_rewrite 2 [next]
    rw [List.range'_append_1]
  case lifetime =>
    intro index lower upper
    by_cases before : index < draft.used
    · apply (ledger.lifetime index lower before).append_of_untouched
      intro touched
      rcases Gadget.touched_of_replaces replaces touched with member | ⟨other, later, _, same⟩
      · exact not_mem_registerOf injective lower (logical _ member)
      · have := injective same
        omega
    · have later := Nat.le_of_not_lt before
      apply (Gadget.lifetime_of_replaces injective replaces elsewhere later upper).append
      intro touched
      rcases ledger.known _ touched with member | ⟨other, _, earlier, same⟩
      · exact not_mem_registerOf injective lower member
      · have := injective same
        omega

theorem ledger_of_ofCircuit (injective : Function.Injective supply)
    (made : ofCircuit supply circuit = .ok table) :
    ∃ draft, Ledger supply circuit draft ∧
      table = ⟨registerOf supply circuit, draft.operations⟩ := by
  apply ofCircuit_induction (Ledger supply circuit) ledger_emptyDraft _ made
  intro draft targets operations used block _ ledger _ found replaces
  exact ledger.append injective (fun _ => TableDraft.mem_qubits_of_mem_targets found) replaces

/-- A table in which conditions and patches are used as they should. -/
structure WellFormed (table : OperationTable) : Prop where
  /-- Conditions read earlier measurements. -/
  reads : ReadsEarlier table.operations
  /-- Whether an operation runs is decided, whatever outcomes are recorded. -/
  decided : ∀ recorded, Recorded table recorded → ∀ index < table.size,
    ∃ answer, recorded.runs index = .ok answer
  /-- An operation touches logical qubits, the patch that it introduces, and patches that have
  been introduced before. -/
  known : ∀ (index : Nat) (operation : Operation), table.operations[index]? = some operation →
    ∀ patch ∈ operation.kind.patches, patch ∈ table.qubits ∨
      operation.kind.introduces? = some patch ∨ ∃ earlier < index, ∃ introduction,
        table.operations[earlier]? = some introduction ∧
          introduction.kind.introduces? = some patch
  /-- A patch that is introduced is no logical qubit, and it has a lifetime. -/
  lifetime : ∀ operation ∈ table.operations, ∀ patch, operation.kind.introduces? = some patch →
    patch ∉ table.qubits ∧ HasLifetime table.operations patch

/-- Tables of circuits are well formed when no identifier of the supply occurs twice. -/
theorem wellFormed_of_ofCircuit (injective : Function.Injective supply)
    (made : ofCircuit supply circuit = .ok table) : table.WellFormed := by
  have reads := readsEarlier_of_ofCircuit made
  rcases ledger_of_ofCircuit injective made with ⟨draft, ledger, rfl⟩
  constructor
  case reads => exact reads
  case decided =>
    intro recorded run index inside
    exact ⟨_, runs_eq_active (run.readsEarlier reads) (run.size_eq.symm ▸ inside)⟩
  case known =>
    intro index operation found patch touches
    rcases ledger.known patch ⟨operation, List.mem_of_getElem? found, touches⟩ with
      logical | ⟨source, lower, upper, rfl⟩
    · exact .inl logical
    · exact .inr ((ledger.lifetime source lower upper).introduced found touches)
  case lifetime =>
    intro operation member patch introduces
    have introduced := mem_introductions.mpr ⟨operation, member, introduces⟩
    rw [ledger.introductions] at introduced
    rcases List.mem_map.mp introduced with ⟨source, inside, rfl⟩
    rw [List.mem_range'_1] at inside
    exact ⟨not_mem_registerOf injective inside.1, ledger.lifetime source inside.1 (by omega)⟩

/-- An eighth rotation, whose correction has an ancilla of its own, and a quarter rotation. -/
theorem wellFormed_of_ofCircuit_nested :
    let circuit : Circuit := ⟨2, [.rotation [.X, .Z] .eighth, .rotation [.Z, .I] .quarter,
      .measurement [.X, .X] true]⟩
    ∃ table, ofCircuit PatchId.mk circuit = .ok table ∧ table.size = 15 ∧
      introductions table.operations = [⟨2⟩, ⟨3⟩, ⟨4⟩] ∧ table.WellFormed := by
  intro circuit
  let table := (ofCircuit PatchId.mk circuit).toOption.getD ⟨[], []⟩
  have made : ofCircuit PatchId.mk circuit = .ok table := by decide
  have injective : Function.Injective PatchId.mk := fun _ _ same => PatchId.mk.inj same
  exact ⟨table, made, by decide, by decide, wellFormed_of_ofCircuit injective made⟩

end OperationTable

end LatticeSurgery
