import LatticeSurgery.Operation.Gadget
import LatticeSurgery.Proofs.Pauli
import LatticeSurgery.Proofs.Result
import Mathlib.Data.List.Nodup

namespace LatticeSurgery

open Result

/-! # Tables of circuits

A table grows by the gadget of one block at a time. What a step can add is said
once, and every fact about tables follows from it by induction over the blocks. -/

/-! ## Targets -/

namespace PauliString

theorem support_eq_filterMap (symbols : PauliString) :
    symbols.support = (List.range symbols.length).filterMap fun qubit =>
      if symbols.symbolAt qubit = .I then none else some (qubit, symbols.symbolAt qubit) := by
  rw [support, zipIdx_eq_map_range, List.filterMap_map]
  rfl

theorem nodup_support_fst (symbols : PauliString) : (symbols.support.map Prod.fst).Nodup := by
  rw [support_eq_filterMap, List.map_filterMap]
  apply List.nodup_range.filterMap
  intro first second position found alsoFound
  split_ifs at found alsoFound <;> simp_all

theorem mem_support {symbols : PauliString} {entry : Nat × Pauli} :
    entry ∈ symbols.support ↔ symbols.symbolAt entry.1 = entry.2 ∧ entry.2 ≠ .I := by
  rcases entry with ⟨qubit, symbol⟩
  rw [support_eq_filterMap]
  simp only [List.mem_filterMap, List.mem_range]
  constructor
  · rintro ⟨position, _, found⟩
    split_ifs at found with idle
    simp only [Option.some.injEq, Prod.mk.injEq] at found
    rcases found with ⟨rfl, rfl⟩
    exact ⟨rfl, idle⟩
  · rintro ⟨rfl, acts⟩
    exact ⟨qubit, lt_length_of_symbolAt acts, by rw [if_neg acts]⟩

theorem support_eq_nil_iff (symbols : PauliString) :
    symbols.support = [] ↔ symbols.isIdentity = true := by
  rw [support, List.filterMap_eq_nil_iff, isIdentity, List.all_eq_true]
  constructor
  · intro idle symbol member
    rcases List.mem_iff_getElem.mp member with ⟨position, inside, rfl⟩
    have empty := idle (symbols[position], position)
      (List.mem_zipIdx_iff_getElem?.mpr (List.getElem?_eq_getElem inside))
    simpa using empty
  · intro idle entry member
    have symbol := idle _ (List.fst_mem_of_mem_zipIdx member)
    simpa using symbol

end PauliString

namespace TableDraft

variable {qubits : List PatchId} {symbols : PauliString} {targets : Targets}

/-- Every symbol of a block goes to the patch of its qubit. -/
abbrev Locates (qubits : List PatchId) : List (Nat × Pauli) → Targets → Prop :=
  List.Forall₂ fun entry factor => qubits[entry.1]? = some factor.1 ∧ entry.2 = factor.2

theorem targets_eq_ok :
    TableDraft.targets qubits symbols = .ok targets ↔
      Locates qubits symbols.support targets := by
  rw [TableDraft.targets, mapM_eq_ok]
  apply iff_of_eq
  congr 1
  funext entry factor
  cases found : qubits[entry.1]? <;> simp [found, Prod.ext_iff]

private theorem Locates.exists_of_mem {entries : List (Nat × Pauli)}
    (located : Locates qubits entries targets) {patch : PatchId}
    (member : patch ∈ targets.map Prod.fst) :
    ∃ position ∈ entries.map Prod.fst, qubits[position]? = some patch := by
  induction located with
  | nil => cases member
  | cons located _ induction =>
      rcases List.mem_cons.mp member with rfl | member
      · exact ⟨_, List.mem_cons_self, located.1⟩
      · rcases induction member with ⟨position, member, found⟩
        exact ⟨position, List.mem_cons_of_mem _ member, found⟩

private theorem Locates.nodup {entries : List (Nat × Pauli)} (distinct : qubits.Nodup)
    (located : Locates qubits entries targets) (positions : (entries.map Prod.fst).Nodup) :
    (targets.map Prod.fst).Nodup := by
  induction located with
  | nil => exact List.nodup_nil
  | @cons entry factor entries factors here located induction =>
      rw [List.map_cons, List.nodup_cons] at positions
      rw [List.map_cons, List.nodup_cons]
      refine ⟨fun member => ?_, induction positions.2⟩
      rcases Locates.exists_of_mem located member with ⟨position, member, found⟩
      rcases List.getElem?_eq_some_iff.mp here.1 with ⟨inside, _⟩
      have same : entry.1 = position :=
        (List.getElem?_inj inside distinct).mp (here.1.trans found.symm)
      exact positions.1 (same ▸ member)

theorem targets_nodup (found : TableDraft.targets qubits symbols = .ok targets)
    (distinct : qubits.Nodup) : (targets.map Prod.fst).Nodup :=
  Locates.nodup distinct (targets_eq_ok.mp found) symbols.nodup_support_fst

theorem mem_qubits_of_mem_targets (found : TableDraft.targets qubits symbols = .ok targets)
    {patch : PatchId} (member : patch ∈ targets.map Prod.fst) : patch ∈ qubits := by
  rcases Locates.exists_of_mem (targets_eq_ok.mp found) member with ⟨position, _, located⟩
  exact List.mem_of_getElem? located

theorem exists_symbolAt_ne (found : TableDraft.targets qubits symbols = .ok targets)
    (acts : targets ≠ []) : ∃ qubit : Fin qubits.length, symbols.symbolAt qubit ≠ .I := by
  cases support : symbols.support with
  | nil =>
      have located := targets_eq_ok.mp found
      rw [support] at located
      exact absurd (List.forall₂_nil_left_iff.mp located) acts
  | cons entry rest =>
      have located := targets_eq_ok.mp found
      rw [support] at located
      rcases List.forall₂_cons_left_iff.mp located with ⟨factor, _, ⟨inside, _⟩, _, _⟩
      have member : entry ∈ symbols.support := support ▸ List.mem_cons_self
      have symbol := PauliString.mem_support.mp member
      exact ⟨⟨entry.1, (List.getElem?_eq_some_iff.mp inside).1⟩, symbol.1 ▸ symbol.2⟩

theorem targets_eq_nil_iff (found : TableDraft.targets qubits symbols = .ok targets) :
    targets = [] ↔ symbols.isIdentity = true := by
  rw [← symbols.support_eq_nil_iff, ← List.length_eq_zero_iff, ← List.length_eq_zero_iff,
    (targets_eq_ok.mp found).length_eq]

end TableDraft

/-! ## Steps -/

namespace Gadget

theorem length_quarter (base : Nat) (ancilla : PatchId) (targets : Targets) (negative : Bool)
    (condition : Option Condition) :
    (quarter base ancilla targets negative condition).length = 3 + targets.length := by
  rw [quarter, half, List.length_append, List.length_map]
  rfl

theorem length_eighth (base : Nat) (magic ancilla : PatchId) (targets : Targets) (negative : Bool)
    (condition : Option Condition) :
    (eighth base magic ancilla targets negative condition).length =
      2 + (3 + targets.length + (1 + targets.length)) := by
  simp only [eighth, half, List.length_append, List.length_cons, List.length_map, length_quarter,
    List.length_nil]
  omega

/-- The operations that take the place of a block whose first operation stands at
position `base`, and the number of fresh patches that they use. -/
inductive Replaces (supply : IdSupply) (base used : Nat) (targets : Targets) :
    BlockKind → List Operation → Nat → Prop
  | single {patch : PatchId} {basis : Pauli} {negative : Bool} (only : targets = [(patch, basis)]) :
      Replaces supply base used targets (.measurement negative)
        [.pending (.measureSingle patch basis negative) none] 0
  | joint {negative : Bool} (several : 2 ≤ targets.length) :
      Replaces supply base used targets (.measurement negative)
        [.pending (.measureJoint targets negative) none] 0
  | identity {angle : Angle} (empty : targets = []) :
      Replaces supply base used targets (.rotation angle) [] 0
  | half {angle : Angle} (acts : targets ≠ []) (size : angle.isHalf = .ok true) :
      Replaces supply base used targets (.rotation angle) (Gadget.half targets none) 0
  | quarter {angle : Angle} (acts : targets ≠ []) (size : angle.isQuarter = .ok true) :
      Replaces supply base used targets (.rotation angle)
        (Gadget.quarter base (supply used) targets angle.isNegative none) 1
  | eighth {angle : Angle} (acts : targets ≠ []) (size : angle.isEighth = .ok true) :
      Replaces supply base used targets (.rotation angle)
        (Gadget.eighth base (supply used) (supply (used + 1)) targets angle.isNegative none) 2

end Gadget

namespace TableDraft

variable {supply : IdSupply} {qubits : List PatchId} {draft next : TableDraft}

private theorem replaces_of_measurement {index : Nat} {targets : Targets} {negative : Bool}
    {operations : List Operation} (base used : Nat)
    (made : Gadget.measurement index targets negative = .ok operations) :
    Gadget.Replaces supply base used targets (.measurement negative) operations 0 := by
  match targets with
  | [] => exact absurd made (refuse_ne_ok _ _)
  | [(patch, basis)] => exact Except.ok.inj made ▸ .single rfl
  | first :: second :: rest => exact Except.ok.inj made ▸ .joint (by simp)

private theorem replaces_of_addRotation {index : Nat} {targets : Targets} {angle : Angle}
    (acts : targets ≠ []) (added : draft.addRotation supply index targets angle = .ok next) :
    ∃ operations used, next = draft.append operations used ∧
      Gadget.Replaces supply draft.operations.length draft.used targets (.rotation angle)
        operations used := by
  rw [addRotation, liftM_eq_ofFaulty, bind_eq_ok] at added
  rcases added with ⟨isHalf, half, added⟩
  rw [ofFaulty_eq_ok_iff] at half
  cases isHalf with
  | true => exact ⟨_, _, (Except.ok.inj added).symm, .half acts half⟩
  | false =>
      simp only [Bool.false_eq_true, if_false, liftM_eq_ofFaulty, bind_eq_ok,
        ofFaulty_eq_ok_iff] at added
      rcases added with ⟨isQuarter, quarter, added⟩
      cases isQuarter with
      | true => exact ⟨_, _, (Except.ok.inj added).symm, .quarter acts quarter⟩
      | false =>
          simp only [Bool.false_eq_true, if_false, bind_eq_ok, ofFaulty_eq_ok_iff] at added
          rcases added with ⟨isEighth, eighth, added⟩
          cases isEighth with
          | true => exact ⟨_, _, (Except.ok.inj added).symm, .eighth acts eighth⟩
          | false => exact absurd added (refuse_ne_ok _ _)

/-- What a step adds to a table. -/
theorem replaces_of_addBlock {block : Block} {index : Nat}
    (added : addBlock supply qubits draft (block, index) = .ok next) :
    block.containsY = false ∧ ∃ targets operations used,
      TableDraft.targets qubits block.symbols = .ok targets ∧
      next = draft.append operations used ∧
      Gadget.Replaces supply draft.operations.length draft.used targets block.kind operations
        used := by
  rw [addBlock] at added
  cases withY : block.containsY with
  | true => simp [withY] at added
  | false =>
      simp only [withY, Bool.false_eq_true, if_false, liftM_eq_ofFaulty, bind_eq_ok,
        ofFaulty_eq_ok_iff, pure_eq_ok] at added
      rcases added with ⟨targets, found, added⟩
      refine ⟨rfl, targets, ?_⟩
      cases kind : block.kind with
      | measurement negative =>
          rw [kind, bind_eq_ok] at added
          rcases added with ⟨operations, made, added⟩
          exact ⟨operations, 0, found, (Except.ok.inj added).symm, replaces_of_measurement _ _ made⟩
      | rotation angle =>
          rw [kind] at added
          by_cases empty : targets = []
          · simp only [empty, List.isEmpty_nil, if_true] at added
            refine ⟨[], 0, found, ?_, .identity empty⟩
            rw [append, List.append_nil, Nat.add_zero]
            exact (Except.ok.inj added).symm
          · simp only [List.isEmpty_iff, empty, if_false] at added
            rcases replaces_of_addRotation empty added with ⟨operations, used, same, replaces⟩
            exact ⟨operations, used, found, same, replaces⟩

end TableDraft

/-! ## Runs -/

namespace OperationTable

variable {supply : IdSupply} {circuit : Circuit} {table : OperationTable}

/-- The patches of the logical qubits of a circuit. -/
def registerOf (supply : IdSupply) (circuit : Circuit) : List PatchId :=
  (List.range circuit.qubits).map supply

/-- The table before any block is replaced. -/
def emptyDraft (circuit : Circuit) : TableDraft := ⟨[], circuit.qubits⟩

theorem ofCircuit_eq_ok :
    ofCircuit supply circuit = .ok table ↔
      Storage.reserve circuit.qubits Storage.identifierSize = .ok () ∧
      ∃ draft, circuit.blocks.zipIdx.foldlM
          (TableDraft.addBlock supply (registerOf supply circuit)) (emptyDraft circuit) =
            .ok draft ∧
        table = ⟨registerOf supply circuit, draft.operations⟩ := by
  simp only [ofCircuit, liftM_eq_ofFaulty, bind_eq_ok, ofFaulty_eq_ok_iff, pure_eq_ok,
    Except.ok.injEq, registerOf, emptyDraft]
  constructor
  · rintro ⟨_, reserved, draft, folded, same⟩
    exact ⟨reserved, draft, folded, same.symm⟩
  · rintro ⟨reserved, draft, folded, same⟩
    exact ⟨(), reserved, draft, folded, same.symm⟩

theorem qubits_of_ofCircuit (made : ofCircuit supply circuit = .ok table) :
    table.qubits = registerOf supply circuit := by
  rcases ofCircuit_eq_ok.mp made with ⟨_, draft, _, rfl⟩
  rfl

@[simp] theorem length_registerOf (supply : IdSupply) (circuit : Circuit) :
    (registerOf supply circuit).length = circuit.qubits := by
  rw [registerOf, List.length_map, List.length_range]

theorem nodup_registerOf (fresh : Function.Injective supply) (circuit : Circuit) :
    (registerOf supply circuit).Nodup :=
  List.Nodup.map fresh List.nodup_range

theorem not_mem_registerOf (fresh : Function.Injective supply) {index : Nat}
    (later : circuit.qubits ≤ index) : supply index ∉ registerOf supply circuit := by
  intro member
  rcases List.mem_map.mp member with ⟨other, inside, same⟩
  rw [fresh same, List.mem_range] at inside
  omega

/-- A property that no step loses holds of the finished table. -/
theorem ofCircuit_induction (Holds : TableDraft → Prop) (start : Holds (emptyDraft circuit))
    (step : ∀ draft targets operations used, ∀ block ∈ circuit.blocks, Holds draft →
      block.containsY = false →
      TableDraft.targets (registerOf supply circuit) block.symbols = .ok targets →
      Gadget.Replaces supply draft.operations.length draft.used targets block.kind operations used →
      Holds (draft.append operations used))
    (made : ofCircuit supply circuit = .ok table) :
    ∃ draft, Holds draft ∧ table = ⟨registerOf supply circuit, draft.operations⟩ := by
  rcases ofCircuit_eq_ok.mp made with ⟨_, draft, folded, same⟩
  refine ⟨draft, of_foldlM Holds ?_ start folded, same⟩
  intro before after entry member holds added
  rcases TableDraft.replaces_of_addBlock added with
    ⟨withoutY, targets, operations, used, found, rfl, replaces⟩
  exact step before targets operations used entry.1 (List.fst_mem_of_mem_zipIdx member) holds
    withoutY found replaces

private theorem prefix_of_addBlocks {qubits : List PatchId} {entries : List (Block × Nat)}
    {draft final : TableDraft}
    (folded : entries.foldlM (TableDraft.addBlock supply qubits) draft = .ok final) :
    draft.operations <+: final.operations ∧ draft.used ≤ final.used := by
  refine of_foldlM (fun later => draft.operations <+: later.operations ∧ draft.used ≤ later.used)
    ?_ ⟨List.prefix_rfl, Nat.le_refl _⟩ folded
  intro before after entry _ holds added
  rcases TableDraft.replaces_of_addBlock added with ⟨_, _, operations, used, _, rfl, _⟩
  exact ⟨holds.1.trans (List.prefix_append _ _), Nat.le_trans holds.2 (Nat.le_add_right _ _)⟩

/-! The gadget of a block stands where the table of the blocks before it ends. -/

/-- The first blocks of a circuit. -/
def firstBlocks (circuit : Circuit) (count : Nat) : Circuit :=
  { circuit with blocks := circuit.blocks.take count }

def gadgetStart (supply : IdSupply) (circuit : Circuit) (position : Nat) : Nat :=
  (ofCircuit supply (firstBlocks circuit position)).toOption.elim 0 size

structure GadgetAt (supply : IdSupply) (circuit : Circuit) (table : OperationTable)
    (position : Nat) (block : Block) where
  draft : TableDraft
  targets : Targets
  operations : List Operation
  used : Nat
  start : gadgetStart supply circuit position = draft.operations.length
  stop : gadgetStart supply circuit (position + 1) = draft.operations.length + operations.length
  qubits_le_used : circuit.qubits ≤ draft.used
  found : TableDraft.targets table.qubits block.symbols = .ok targets
  replaces : Gadget.Replaces supply draft.operations.length draft.used targets block.kind
    operations used
  inside : draft.operations ++ operations <+: table.operations

private theorem foldlM_firstBlocks {qubits : List PatchId} {position : Nat} {block : Block}
    {start final : TableDraft}
    (folded : circuit.blocks.zipIdx.foldlM (TableDraft.addBlock supply qubits) start = .ok final)
    (located : circuit.blocks[position]? = some block) :
    ∃ before after,
      (circuit.blocks.take position).zipIdx.foldlM (TableDraft.addBlock supply qubits) start =
        .ok before ∧
      TableDraft.addBlock supply qubits before (block, position) = .ok after ∧
      (circuit.blocks.take (position + 1)).zipIdx.foldlM (TableDraft.addBlock supply qubits) start =
        .ok after ∧
      after.operations <+: final.operations := by
  rcases List.getElem?_eq_some_iff.mp located with ⟨inside, rfl⟩
  have length : (circuit.blocks.take position).length = position :=
    List.length_take_of_le (Nat.le_of_lt inside)
  have next : circuit.blocks.take (position + 1) =
      circuit.blocks.take position ++ [circuit.blocks[position]] := by
    rw [List.take_append_getElem]
  have whole : circuit.blocks.zipIdx = (circuit.blocks.take position).zipIdx ++
      (circuit.blocks[position], position) ::
        (circuit.blocks.drop (position + 1)).zipIdx (position + 1) := by
    rw [← List.zipIdx_cons, ← List.drop_eq_getElem_cons inside]
    nth_rewrite 1 [← List.take_append_drop position circuit.blocks]
    rw [List.zipIdx_append, length, Nat.zero_add]
  rw [whole, List.foldlM_append, bind_eq_ok] at folded
  rcases folded with ⟨before, taken, folded⟩
  rw [List.foldlM_cons, bind_eq_ok] at folded
  rcases folded with ⟨after, added, folded⟩
  refine ⟨before, after, taken, added, ?_, (prefix_of_addBlocks folded).1⟩
  rw [next, List.zipIdx_append, length, List.foldlM_append, taken, ok_bind, Nat.zero_add,
    List.zipIdx_singleton, List.foldlM_cons, added]
  rfl

theorem exists_gadgetAt (made : ofCircuit supply circuit = .ok table) {position : Nat}
    {block : Block} (located : circuit.blocks[position]? = some block) :
    Nonempty (GadgetAt supply circuit table position block) := by
  rcases ofCircuit_eq_ok.mp made with ⟨reserved, final, folded, rfl⟩
  rcases foldlM_firstBlocks folded located with ⟨before, after, taken, added, next, inside⟩
  rcases TableDraft.replaces_of_addBlock added with
    ⟨_, targets, operations, used, found, rfl, replaces⟩
  have madeBefore : ofCircuit supply (firstBlocks circuit position) =
      .ok ⟨registerOf supply circuit, before.operations⟩ :=
    ofCircuit_eq_ok.mpr ⟨reserved, before, taken, rfl⟩
  have madeAfter : ofCircuit supply (firstBlocks circuit (position + 1)) =
      .ok ⟨registerOf supply circuit, before.operations ++ operations⟩ :=
    ofCircuit_eq_ok.mpr ⟨reserved, before.append operations used, next, rfl⟩
  have start : gadgetStart supply circuit position = before.operations.length := by
    rw [gadgetStart, madeBefore]
    rfl
  have stop : gadgetStart supply circuit (position + 1) =
      before.operations.length + operations.length := by
    rw [gadgetStart, madeAfter, ← List.length_append]
    rfl
  exact ⟨⟨before, targets, operations, used, start, stop, (prefix_of_addBlocks taken).2, found,
    replaces, inside⟩⟩

end OperationTable

end LatticeSurgery
