import LatticeSurgery.Pass
import LatticeSurgery.Proofs.Circuit.Ready
import LatticeSurgery.Proofs.Operation.Lowering

namespace LatticeSurgery

open Result

/-! # Circuits that are ready

The verification counts through the blocks of a circuit, and the table is made of their
gadgets. Both go over the blocks side by side: they stop at the same block for the same
reason, and as long as they go on, the counts tell what operations the gadgets have. -/

/-! ## Counting operations -/

/-- The number of operations of a kind. -/
def kindCount (test : OperationKind → Bool) (operations : List Operation) : Nat :=
  operations.countP fun operation => test operation.kind

theorem kindCount_append (test : OperationKind → Bool) (first second : List Operation) :
    kindCount test (first ++ second) = kindCount test first + kindCount test second :=
  List.countP_append

theorem kindCount_cons (test : OperationKind → Bool) (operation : Operation)
    (rest : List Operation) :
    kindCount test (operation :: rest) =
      kindCount test rest + if test operation.kind then 1 else 0 :=
  List.countP_cons

/-- The number of magic states that operations ask for. -/
abbrev magicRequests (operations : List Operation) : Nat :=
  kindCount OperationKind.isMagicRequest operations

theorem magicRequests_append (first second : List Operation) :
    magicRequests (first ++ second) = magicRequests first + magicRequests second :=
  kindCount_append _ first second

def OperationKind.isPreparation : OperationKind → Bool
  | .prepare .. => true
  | _ => false

/-- The number of ancilla patches that operations prepare. -/
abbrev preparations (operations : List Operation) : Nat :=
  kindCount OperationKind.isPreparation operations

namespace Gadget

section Counts

variable {test : OperationKind → Bool}
  (others : ∀ patch operator, test (.pauli patch operator) = false)
  (base : Nat) (magic ancilla : PatchId) (targets : Targets) (negative : Bool)
  (condition : Option Condition)

include others

theorem kindCount_half : kindCount test (half targets condition) = 0 := by
  apply List.countP_eq_zero.mpr
  intro operation member
  rcases List.mem_map.mp member with ⟨factor, _, rfl⟩
  exact Bool.not_eq_true _ ▸ others factor.1 factor.2

theorem kindCount_quarter :
    kindCount test (quarter base ancilla targets negative condition) =
      [.prepare ancilla .yPlus, mergeWith targets ancilla,
        .measureSingle ancilla .X false].countP test := by
  rw [quarter, kindCount_append, kindCount_half others]
  rfl

theorem kindCount_eighth :
    kindCount test (eighth base magic ancilla targets negative condition) =
      [.requestMagic magic, mergeWith targets magic].countP test +
        [.prepare ancilla .yPlus, mergeWith targets ancilla,
          .measureSingle ancilla .X false].countP test +
        [.measureSingle magic .X false].countP test := by
  rw [eighth, kindCount_append, kindCount_append, kindCount_quarter others,
    kindCount_cons _ _ (half _ _), kindCount_half others, Nat.zero_add, List.countP_singleton]
  rfl

end Counts

theorem magicRequests_half (targets : Targets) (condition : Option Condition) :
    magicRequests (half targets condition) = 0 :=
  kindCount_half (fun _ _ => rfl) targets condition

theorem magicRequests_quarter (base : Nat) (ancilla : PatchId) (targets : Targets)
    (negative : Bool) (condition : Option Condition) :
    magicRequests (quarter base ancilla targets negative condition) = 0 :=
  kindCount_quarter (fun _ _ => rfl) base ancilla targets negative condition

theorem magicRequests_eighth (base : Nat) (magic ancilla : PatchId) (targets : Targets)
    (negative : Bool) (condition : Option Condition) :
    magicRequests (eighth base magic ancilla targets negative condition) = 1 :=
  kindCount_eighth (fun _ _ => rfl) base magic ancilla targets negative condition

end Gadget

/-! ## Sizes of gadgets -/

/-- The number of operations that take the place of a block that acts on `weight` qubits. -/
def BlockKind.gadgetSize (weight : Nat) : BlockKind → Nat
  | .measurement _ => 1
  | .rotation angle =>
      if weight = 0 then 0
      else if |angle.value| = 1 / 2 then weight
      else if |angle.value| = 1 / 4 then weight + 3
      else if |angle.value| = 1 / 8 then 2 * weight + 6
      else 0

/-- The number of positions with a symbol other than the identity. -/
def PauliString.weight (symbols : PauliString) : Nat := symbols.countP fun symbol => symbol ≠ .I

def Block.gadgetSize (block : Block) : Nat := block.kind.gadgetSize block.symbols.weight

theorem PauliString.length_support (symbols : PauliString) :
    symbols.support.length = symbols.weight := by
  rw [support, weight, List.length_filterMap_eq_countP]
  nth_rewrite 2 [← List.zipIdx_map_fst 0 symbols]
  rw [List.countP_map]
  apply List.countP_congr
  intro entry _
  by_cases idle : entry.1 = .I <;> simp [idle]

theorem Gadget.length_of_replaces {supply : IdSupply} {base used fresh : Nat} {targets : Targets}
    {kind : BlockKind} {operations : List Operation}
    (replaces : Replaces supply base used targets kind operations fresh) :
    operations.length = kind.gadgetSize targets.length := by
  cases replaces with
  | single | joint => rfl
  | identity empty =>
      rw [empty]
      rfl
  | half acts size =>
      have value := ((Angle.hasMagnitude_eq_ok_true (by norm_num)).mp size).2
      rw [Angle.value_half] at value
      simp [half, BlockKind.gadgetSize, acts, value]
  | quarter acts size =>
      have value := ((Angle.hasMagnitude_eq_ok_true (by norm_num)).mp size).2
      rw [Angle.value_quarter] at value
      rw [length_quarter, BlockKind.gadgetSize, value]
      norm_num [acts, Nat.add_comm]
  | eighth acts size =>
      have value := ((Angle.hasMagnitude_eq_ok_true (by norm_num)).mp size).2
      rw [Angle.value_eighth] at value
      rw [length_eighth, BlockKind.gadgetSize, value]
      norm_num [acts]
      omega

/-! ## Side by side -/

/-- The reason for which there is no table, when a circuit is not ready. -/
def TableError.ofUnready : Unready → TableError
  | .containsY block => .containsY block
  | .measuresIdentity block => .emptyMeasurement block
  | .angleOutside block angle => .unsupportedAngle angle block

/-- What the counts of the verification say about the operations of the same blocks. -/
structure Tally (blocks : List Block) (stats : CircuitStats) (draft : TableDraft) : Prop where
  size : draft.operations.length = (blocks.map Block.gadgetSize).sum
  requests : magicRequests draft.operations = stats.eighths
  prepared : preparations draft.operations = stats.quarters + stats.eighths

namespace TableDraft

variable {supply : IdSupply} {qubits : List PatchId} {draft : TableDraft}

theorem exists_targets {symbols : PauliString} (narrow : symbols.length ≤ qubits.length) :
    ∃ targets, TableDraft.targets qubits symbols = .ok targets := by
  rw [TableDraft.targets]
  refine exists_mapM_of_forall fun entry member => ?_
  rcases PauliString.mem_support.mp member with ⟨symbol, acts⟩
  have inside := PauliString.lt_length_of_symbolAt (symbol ▸ acts)
  simp only [List.getElem?_eq_getElem (Nat.lt_of_lt_of_le inside narrow)]
  exact ⟨_, rfl⟩

theorem append_nil (draft : TableDraft) : draft.append [] 0 = draft := by
  rw [append, List.append_nil, Nat.add_zero]

theorem length_targets {symbols : PauliString} {targets : Targets}
    (found : TableDraft.targets qubits symbols = .ok targets) :
    targets.length = symbols.weight := by
  rw [← symbols.length_support, (targets_eq_ok.mp found).length_eq]

end TableDraft

namespace Tally

open TableDraft

variable {supply : IdSupply} {qubits : List PatchId} {draft : TableDraft} {done : List Block}
  {stats next : CircuitStats} {block : Block} {targets : Targets} {index : Nat}

theorem append (supply : IdSupply) (tally : Tally done stats draft)
    (found : TableDraft.targets qubits block.symbols = .ok targets) {kind : BlockKind}
    (sameKind : block.kind = kind) {operations : List Operation} {fresh : Nat}
    (replaces : Gadget.Replaces supply draft.operations.length draft.used targets kind
      operations fresh)
    (requests : stats.eighths + magicRequests operations = next.eighths)
    (prepared : stats.quarters + stats.eighths + preparations operations =
      next.quarters + next.eighths) :
    Tally (done ++ [block]) next (draft.append operations fresh) where
  size := by
    rw [TableDraft.append, List.length_append, tally.size, Gadget.length_of_replaces replaces,
      length_targets found, List.map_append, List.sum_append, ← sameKind]
    rfl
  requests := by
    rw [TableDraft.append, magicRequests, kindCount_append, ← requests, ← tally.requests]
  prepared := by
    rw [TableDraft.append, preparations, kindCount_append, ← prepared, ← tally.prepared]

/-- Rotations are counted and replaced by the magnitudes of their angles. -/
theorem addRotation {angle : Angle} (tally : Tally done stats draft)
    (found : TableDraft.targets qubits block.symbols = .ok targets) (acts : targets ≠ [])
    (kind : block.kind = .rotation angle) :
    Alike TableError.ofUnready (Tally (done ++ [block]))
      (do
        if ← angle.isHalf then return { stats with halves := stats.halves + 1 }
        if ← angle.isQuarter then return { stats with quarters := stats.quarters + 1 }
        if ← angle.isEighth then return { stats with eighths := stats.eighths + 1 }
        Result.refuse (.angleOutside index angle))
      (draft.addRotation supply index targets angle) := by
  -- One gadget after the other: what it is made of, and what the counts say about it.
  apply Alike.bind_ofFaulty angle.isHalf
  intro isHalf half
  cases isHalf with
  | true =>
      have requests := Gadget.magicRequests_half targets none
      have prepared : preparations (Gadget.half targets none) = 0 :=
        Gadget.kindCount_half (fun _ _ => rfl) _ _
      apply Alike.ok
      apply tally.append supply found kind (.half acts half)
      · rw [requests, Nat.add_zero]
      · rw [prepared, Nat.add_zero]
  | false =>
      apply Alike.bind_ofFaulty angle.isQuarter
      intro isQuarter quarter
      cases isQuarter with
      | true =>
          let gadget := Gadget.quarter draft.operations.length (supply draft.used) targets
            angle.isNegative none
          have requests : magicRequests gadget = 0 := Gadget.magicRequests_quarter _ _ _ _ _
          have prepared : preparations gadget = 1 :=
            Gadget.kindCount_quarter (fun _ _ => rfl) _ _ _ _ _
          apply Alike.ok
          apply tally.append supply found kind (.quarter acts quarter)
          · rw [requests, Nat.add_zero]
          · rw [prepared, Nat.add_right_comm]
      | false =>
          apply Alike.bind_ofFaulty angle.isEighth
          intro isEighth eighth
          cases isEighth with
          | true =>
              let gadget := Gadget.eighth draft.operations.length (supply draft.used)
                (supply (draft.used + 1)) targets angle.isNegative none
              have requests : magicRequests gadget = 1 := Gadget.magicRequests_eighth _ _ _ _ _ _
              have prepared : preparations gadget = 1 :=
                Gadget.kindCount_eighth (fun _ _ => rfl) _ _ _ _ _ _
              apply Alike.ok
              apply tally.append supply found kind (.eighth acts eighth)
              · rw [requests]
              · rw [prepared, Nat.add_assoc]
          | false => exact .error (.refused (Unready.angleOutside index angle))

/-- The verification counts a block when there is a gadget for it, and refuses it for the
reason for which there is none. -/
theorem addBlock (tally : Tally done stats draft) (narrow : block.width = qubits.length) :
    Alike TableError.ofUnready (Tally (done ++ [block])) (stats.count (block, index))
      (TableDraft.addBlock supply qubits draft (block, index)) := by
  rw [CircuitStats.count, TableDraft.addBlock]
  cases block.containsY with
  | true => exact .error (.refused (Unready.containsY index))
  | false =>
      rcases exists_targets (Nat.le_of_eq narrow) with ⟨targets, found⟩
      have empty : targets = [] ↔ block.isIdentity = true := targets_eq_nil_iff found
      simp only [Bool.false_eq_true, if_false, found, liftM_eq_ofFaulty, ofFaulty_ok, ok_bind,
        pure_eq_ok]
      cases identity : block.isIdentity with
      | true =>
          have none := empty.mpr identity
          subst none
          cases kind : block.kind with
          | measurement negative => exact .error (.refused (Unready.measuresIdentity index))
          | rotation angle =>
              have kept := tally.append supply found kind (.identity rfl) rfl rfl
              rw [append_nil] at kept
              exact .ok kept
      | false =>
          have acts : targets ≠ [] := by
            rw [ne_eq, empty, identity]
            exact Bool.false_ne_true
          cases kind : block.kind with
          | measurement negative =>
              rcases targets with _ | ⟨factor, _ | ⟨second, rest⟩⟩
              · exact absurd rfl acts
              · exact .ok (tally.append supply found kind (.single rfl) rfl rfl)
              · exact .ok (tally.append supply found kind (.joint (by simp)) rfl rfl)
          | rotation angle =>
              simp only [List.isEmpty_iff, acts, Bool.false_eq_true, if_false]
              exact tally.addRotation found acts kind

/-- The verification and the table go over all blocks side by side. -/
theorem addBlocks (supply : IdSupply) {entries : List (Block × Nat)}
    (narrow : ∀ entry ∈ entries, entry.1.width = qubits.length) (tally : Tally [] stats draft) :
    Alike TableError.ofUnready (Tally (entries.map Prod.fst))
      (entries.foldlM CircuitStats.count stats)
      (entries.foldlM (TableDraft.addBlock supply qubits) draft) := by
  apply Alike.foldlM (fun done => Tally (done.map Prod.fst)) _ [] tally
  intro done before other entry member tally
  rw [List.map_append]
  exact tally.addBlock (narrow entry member)

end Tally

namespace OperationTable

variable {circuit : Circuit} {stats : CircuitStats}

/-- The verification of a circuit and its table, when its register can be stored. -/
theorem alike_ofCircuit (supply : IdSupply) (uniform : circuit.Uniform)
    (reserved : Storage.reserve circuit.qubits Storage.identifierSize = .ok ()) :
    Alike TableError.ofUnready
      (fun stats table => table.size = (circuit.blocks.map Block.gadgetSize).sum ∧
        table.magicCount = stats.eighths ∧
        preparations table.operations = stats.quarters + stats.eighths)
      (CircuitStats.ofCircuit circuit) (ofCircuit supply circuit) := by
  have narrow : ∀ entry ∈ circuit.blocks.zipIdx,
      entry.1.width = (registerOf supply circuit).length := by
    intro entry member
    rw [length_registerOf]
    exact uniform entry.1 (List.fst_mem_of_mem_zipIdx member)
  have start : Tally [] CircuitStats.zero (emptyDraft circuit) := ⟨rfl, rfl, rfl⟩
  have run := start.addBlocks supply narrow
  rw [List.zipIdx_map_fst] at run
  rw [ofCircuit, reserved, ← bind_pure (CircuitStats.ofCircuit circuit)]
  apply run.bind
  intro stats draft tally
  exact .ok ⟨tally.size, tally.requests, tally.prepared⟩

/-- A circuit that is ready has a table when its register can be stored. -/
theorem exists_ofCircuit_of_reserve (supply : IdSupply) (uniform : circuit.Uniform)
    (reserved : Storage.reserve circuit.qubits Storage.identifierSize = .ok ())
    (counted : CircuitStats.ofCircuit circuit = .ok stats) :
    ∃ table, ofCircuit supply circuit = .ok table ∧ table.magicCount = stats.eighths := by
  have alike := alike_ofCircuit supply uniform reserved
  rw [counted] at alike
  rcases alike.exists_of_ok with ⟨table, made, facts⟩
  exact ⟨table, made, facts.2.1⟩

theorem exists_ofCircuit (supply : IdSupply) (uniform : circuit.Uniform)
    (narrow : 2 * circuit.qubits < 2147483648)
    (counted : CircuitStats.ofCircuit circuit = .ok stats) :
    ∃ table, ofCircuit supply circuit = .ok table ∧ table.magicCount = stats.eighths := by
  have reserved : Storage.reserve circuit.qubits Storage.identifierSize = .ok () := by
    rw [Storage.reserve, if_pos]
    simp only [Word.Fits64, Word.limit64, Storage.identifierSize, Int.ofNat_eq_natCast]
    omega
  exact exists_ofCircuit_of_reserve supply uniform reserved counted

end OperationTable

/-! ## Verification -/

namespace Pass

theorem ofCircuit_of_verification {work verified : Workpiece} {stats : CircuitStats}
    (accepted : verification.run work = .ok verified) (counted : verified.stats = some stats) :
    CircuitStats.ofCircuit work.circuit = .ok stats := by
  rw [Pass.run, bind_eq_ok] at accepted
  rcases accepted with ⟨found, accepted, same⟩
  rw [← Except.ok.inj same, Option.some.injEq] at counted
  exact counted ▸ widen_eq_ok.mp accepted

/-- The verification accepts a circuit exactly when there is a table for it. Otherwise both
refuse the same block for the same reason. The counts of the verification are those of the
operations of the table. -/
theorem verification_agrees (supply : IdSupply) (work : Workpiece) (uniform : work.circuit.Uniform)
    (invertible : ∀ block ∈ work.circuit.blocks, ∀ angle, block.kind = .rotation angle →
      angle.numer ≠ -Word.limit64)
    (reserved : Storage.reserve work.circuit.qubits Storage.identifierSize = .ok ()) :
    ((∃ verified, verification.run work = .ok verified) ↔
      ∃ table, OperationTable.ofCircuit supply work.circuit = .ok table) ∧
    (∀ failure, verification.run work = .error failure → ∃ reason,
      failure = .refused (.passFailed verification reason) ∧
      OperationTable.ofCircuit supply work.circuit = Result.refuse (.ofUnready reason)) ∧
    ∀ verified table, verification.run work = .ok verified →
      OperationTable.ofCircuit supply work.circuit = .ok table → ∃ stats,
        verified.stats = some stats ∧
        table.size = (work.circuit.blocks.map Block.gadgetSize).sum ∧
        table.magicCount = stats.eighths ∧
        preparations table.operations = stats.quarters + stats.eighths := by
  have alike := OperationTable.alike_ofCircuit supply uniform reserved
  cases counted : CircuitStats.ofCircuit work.circuit with
  | ok stats =>
      have accepted : verification.run work = .ok { work with stats := some stats } := by
        rw [Pass.run, counted]
        rfl
      rw [counted] at alike
      rcases alike.exists_of_ok with ⟨table, made, facts⟩
      rw [accepted, made]
      refine ⟨by simp, by simp, ?_⟩
      rintro _ _ ⟨⟩ ⟨⟩
      exact ⟨stats, rfl, facts⟩
  | error failure =>
      rcases CircuitStats.refused_of_ofCircuit invertible counted with ⟨reason, rfl⟩
      have refused : verification.run work = Result.refuse (.passFailed verification reason) := by
        rw [Pass.run, counted]
        rfl
      rw [counted] at alike
      rw [refused, alike.eq_of_error]
      refine ⟨by simp [Result.refuse], ?_, ?_⟩
      · rintro _ ⟨⟩
        exact ⟨reason, rfl, rfl⟩
      · rintro _ _ ⟨⟩

/-- Rotations of all magnitudes, one of them about the identity, and a measurement. -/
theorem verification_agrees_allMagnitudes :
    let circuit : Circuit := ⟨2, [.rotation [.X, .Z] .eighth,
      .rotation [.I, .I] ⟨3, 5, by decide, by decide, by decide⟩, .rotation [.Z, .I] .half,
      .rotation [.Z, .X] .negQuarter, .measurement [.X, .X] true]⟩
    ∃ verified table stats, verification.run (.start circuit .none) = .ok verified ∧
      OperationTable.ofCircuit PatchId.mk circuit = .ok table ∧ verified.stats = some stats ∧
      table.size = 17 ∧ (circuit.blocks.map Block.gadgetSize).sum = 17 ∧
      table.magicCount = stats.eighths ∧
      preparations table.operations = stats.quarters + stats.eighths := by
  intro circuit
  let table := (OperationTable.ofCircuit PatchId.mk circuit).toOption.getD ⟨[], []⟩
  have made : OperationTable.ofCircuit PatchId.mk circuit = .ok table := by decide
  have size : table.size = 17 := by decide
  have uniform : circuit.Uniform := by decide
  have invertible : ∀ block ∈ circuit.blocks, ∀ angle, block.kind = .rotation angle →
      angle.numer ≠ -Word.limit64 := by
    intro block member angle kind
    simp only [circuit, List.mem_cons, List.not_mem_nil, or_false] at member
    rcases member with rfl | rfl | rfl | rfl | rfl <;> cases kind <;> decide
  rcases verification_agrees PatchId.mk (.start circuit .none) uniform invertible (by decide) with
    ⟨succeeds, _, counts⟩
  rcases succeeds.mpr ⟨table, made⟩ with ⟨verified, accepted⟩
  rcases counts verified table accepted made with ⟨stats, known, sizes, requests, prepared⟩
  exact ⟨verified, table, stats, accepted, made, known, size, sizes ▸ size, requests, prepared⟩

/-- A circuit with more qubits than identifiers can be stored is accepted, but there is no
table for it. -/
theorem verification_of_fullRegister :
    let circuit : Circuit := ⟨18446744073709551615, []⟩
    circuit.Uniform ∧ (∃ verified, verification.run (.start circuit .none) = .ok verified) ∧
      ¬∃ table, OperationTable.ofCircuit PatchId.mk circuit = .ok table := by
  intro circuit
  refine ⟨by decide, ⟨_, rfl⟩, ?_⟩
  intro succeeded
  rcases succeeded with ⟨table, made⟩
  have reserved := (OperationTable.ofCircuit_eq_ok.mp made).1
  exact absurd reserved (by decide)

end Pass

end LatticeSurgery
