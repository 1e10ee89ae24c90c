import LatticeSurgery.Proofs.Timeline.Composition
import LatticeSurgery.Proofs.Timeline.Tracking

namespace LatticeSurgery

open Result

/-! # States of the qubits

What a slice says about a qubit follows from the operations that have been performed. Once the
qubit has been measured, alone or together with others, nothing is known of its state. Before
that the X operators are counted, because every qubit starts in the state zero. -/

/-! ## Operations of a run -/

namespace Operation

/-- The operation measures the patch, alone or together with others. -/
def measures (patch : PatchId) (operation : Operation) : Bool :=
  operation.kind.isMeasurement && operation.touches patch

/-- The operation is an X operator on the patch. -/
def flips (patch : PatchId) (operation : Operation) : Bool :=
  operation.kind = .pauli patch .X

end Operation

/-- What is known of the state of a qubit after operations. -/
def SymbolicState.afterRun (applied : List Operation) (id : PatchId) : SymbolicState :=
  if applied.any (Operation.measures id) then .unknown
  else if applied.countP (Operation.flips id) % 2 = 1 then .one else .zero

/-- Operators of the operations have a border. -/
def Operation.PlainPauli (operation : Operation) : Prop :=
  ∀ patch operator, operation.kind = .pauli patch operator → operator = .X ∨ operator = .Z

namespace SymbolicState

variable {applied : List Operation} {operation : Operation} {id : PatchId}

theorem afterRun_of_measures (measures : operation.measures id = true) :
    afterRun (applied ++ [operation]) id = .unknown := by
  rw [afterRun, List.any_append, List.any_cons, measures, Bool.true_or, Bool.or_true, if_pos rfl]

theorem afterRun_of_unrelated (measures : operation.measures id = false)
    (flips : operation.flips id = false) :
    afterRun (applied ++ [operation]) id = afterRun applied id := by
  simp [afterRun, List.any_append, List.countP_append, measures, flips]

theorem afterRun_of_flips (measures : operation.measures id = false)
    (flips : operation.flips id = true) :
    afterRun (applied ++ [operation]) id = (afterRun applied id).apply .X := by
  have counted : (applied ++ [operation]).countP (Operation.flips id) =
      applied.countP (Operation.flips id) + 1 := by
    rw [List.countP_append, List.countP_singleton, flips, if_pos rfl]
  have measured : (applied ++ [operation]).any (Operation.measures id) =
      applied.any (Operation.measures id) := by
    simp [measures]
  rw [afterRun, afterRun, counted, measured]
  cases applied.any (Operation.measures id) with
  | true => rfl
  | false =>
      rcases Nat.mod_two_eq_zero_or_one (applied.countP (Operation.flips id)) with even | odd
      · rw [even, Nat.succ_mod_two_eq_one_iff.mpr even]
        rfl
      · rw [odd, Nat.succ_mod_two_eq_zero_iff.mpr odd]
        rfl

/-- Operators along Z change none of the states that qubits are known to be in. -/
theorem apply_Z_afterRun : (afterRun applied id).apply .Z = afterRun applied id := by
  rw [afterRun]
  split
  · rfl
  · split <;> rfl

/-- One more operation. -/
theorem afterRun_concat (plain : operation.PlainPauli) :
    afterRun (applied ++ [operation]) id = operation.kind.carry id (afterRun applied id) := by
  rcases operation with ⟨kind, condition, outcome⟩
  cases kind with
  | measureSingle patch basis negative =>
      by_cases same : patch = id
      · rw [OperationKind.carry, if_pos same]
        apply afterRun_of_measures
        simp [Operation.measures, Operation.touches, OperationKind.isMeasurement,
          OperationKind.patches, same]
      · rw [OperationKind.carry, if_neg same]
        apply afterRun_of_unrelated
        · simp [Operation.measures, Operation.touches, OperationKind.patches, Ne.symm same]
        · rfl
  | measureJoint factors negative =>
      by_cases asked : id ∈ factors.map Prod.fst
      · rw [OperationKind.carry, if_pos asked]
        apply afterRun_of_measures
        rw [Operation.measures, Operation.touches, OperationKind.patches, decide_eq_true asked]
        rfl
      · rw [OperationKind.carry, if_neg asked]
        apply afterRun_of_unrelated
        · rw [Operation.measures, Operation.touches, OperationKind.patches,
            decide_eq_false asked, Bool.and_false]
        · rfl
  | pauli patch operator =>
      by_cases same : patch = id
      · rw [OperationKind.carry, if_pos same]
        rcases plain patch operator rfl with rfl | rfl
        · exact afterRun_of_flips rfl (by simp [Operation.flips, same])
        · rw [apply_Z_afterRun]
          exact afterRun_of_unrelated rfl (by simp [Operation.flips])
      · rw [OperationKind.carry, if_neg same]
        exact afterRun_of_unrelated rfl (by simp [Operation.flips, same])
  | prepare patch state => exact afterRun_of_unrelated rfl rfl
  | requestMagic patch => exact afterRun_of_unrelated rfl rfl

theorem foldl_carry_eq_afterRun (plain : ∀ operation ∈ applied, operation.PlainPauli) :
    applied.foldl (fun state operation => operation.kind.carry id state) .zero =
      afterRun applied id := by
  induction applied using List.reverseRecOn with
  | nil => rfl
  | append_singleton applied operation induction =>
      rw [List.forall_mem_append, List.forall_mem_singleton] at plain
      rw [List.foldl_concat, induction plain.1, afterRun_concat plain.2]

end SymbolicState

/-! ## Operators of a table

A Pauli operator that a table asks for is a factor of a block, and blocks without Y factors have
X and Z factors only. -/

namespace Gadget

variable {targets : Targets} (plain : ∀ factor ∈ targets, factor.2 = .X ∨ factor.2 = .Z)

include plain

theorem plainPauli_half (condition : Option Condition) :
    ∀ operation ∈ half targets condition, operation.PlainPauli := by
  intro operation member patch operator isPauli
  rcases List.mem_map.mp member with ⟨factor, factorMember, rfl⟩
  cases isPauli
  exact plain factor factorMember

theorem plainPauli_quarter (base : Nat) (ancilla : PatchId) (negative : Bool)
    (condition : Option Condition) :
    ∀ operation ∈ quarter base ancilla targets negative condition, operation.PlainPauli := by
  rw [quarter, List.forall_mem_append]
  constructor
  · intro operation member patch operator isPauli
    simp only [List.mem_cons, List.not_mem_nil, or_false] at member
    rcases member with rfl | rfl | rfl <;> cases isPauli
  · exact plainPauli_half plain _

theorem plainPauli_eighth (base : Nat) (magic ancilla : PatchId) (negative : Bool)
    (condition : Option Condition) :
    ∀ operation ∈ eighth base magic ancilla targets negative condition,
      operation.PlainPauli := by
  rw [eighth, List.forall_mem_append, List.forall_mem_append]
  refine ⟨⟨?_, plainPauli_quarter plain _ _ _ _⟩, ?_⟩
  · intro operation member patch operator isPauli
    simp only [List.mem_cons, List.not_mem_nil, or_false] at member
    rcases member with rfl | rfl <;> cases isPauli
  · rw [List.forall_mem_cons]
    constructor
    · intro patch operator isPauli
      cases isPauli
    · exact plainPauli_half plain _

theorem plainPauli_of_replaces {supply : IdSupply} {base used fresh : Nat} {kind : BlockKind}
    {operations : List Operation}
    (replaces : Replaces supply base used targets kind operations fresh) :
    ∀ operation ∈ operations, operation.PlainPauli := by
  cases replaces with
  | single | joint =>
      intro operation member patch operator isPauli
      cases List.mem_singleton.mp member
      cases isPauli
  | identity => exact List.forall_mem_nil _
  | half => exact plainPauli_half plain _
  | quarter => exact plainPauli_quarter plain _ _ _ _
  | eighth => exact plainPauli_eighth plain _ _ _ _ _

end Gadget

namespace OperationTable

variable {supply : IdSupply} {circuit : Circuit} {table recorded : OperationTable}

theorem mem_operations_of_mem_running {operation : Operation}
    (member : operation ∈ table.running) : operation ∈ table.operations := by
  rcases List.mem_map.mp member with ⟨entry, runs, rfl⟩
  exact List.fst_mem_of_mem_zipIdx (List.mem_filter.mp runs).1

/-- Operations that have been recorded are those of the table. -/
theorem Recorded.exists_mem (run : Recorded table recorded) {operation : Operation}
    (member : operation ∈ recorded.operations) :
    ∃ original ∈ table.operations, original.kind = operation.kind := by
  rcases List.getElem?_of_mem member with ⟨index, found⟩
  rcases run.exists_getElem? found with ⟨original, originalFound, same⟩
  rw [plan, plan, Prod.mk.injEq] at same
  exact ⟨original, List.mem_of_getElem? originalFound, same.1⟩

theorem plainPauli_of_ofCircuit (fresh : Function.Injective supply)
    (made : ofCircuit supply circuit = .ok table) :
    ∀ operation ∈ table.operations, operation.PlainPauli := by
  have distinct := nodup_registerOf fresh circuit
  apply (ofCircuit_induction (fun draft => ∀ operation ∈ draft.operations, operation.PlainPauli)
    (List.forall_mem_nil _) _ made).elim
  · rintro draft ⟨plain, rfl⟩
    exact plain
  · intro draft targets operations used block _ plain withoutY found replaces
    have admits := (scene supply circuit 0 0).admits_of_targets distinct withoutY found
    exact List.forall_mem_append.mpr ⟨plain, Gadget.plainPauli_of_replaces admits.plain replaces⟩

theorem introduces_of_ofCircuit (fresh : Function.Injective supply)
    (made : ofCircuit supply circuit = .ok table) {operation : Operation}
    (member : operation ∈ table.operations) {id : PatchId}
    (introduces : operation.kind.introduces? = some id) : id ∉ table.qubits := by
  rcases ledger_of_ofCircuit fresh made with ⟨draft, ledger, rfl⟩
  have introduced := mem_introductions.mpr ⟨operation, member, introduces⟩
  rw [ledger.introductions] at introduced
  rcases List.mem_map.mp introduced with ⟨source, inside, rfl⟩
  rw [List.mem_range'_1] at inside
  exact not_mem_registerOf fresh inside.1

end OperationTable

/-! ## The first slice -/

namespace Timeline

theorem apart_simple {qubits : List PatchId} {magic : Nat} {layout : Layout}
    (made : Layout.simple qubits magic = .ok layout) : layout.lattice.Apart := by
  rcases Layout.simple_eq_ok.mp made with ⟨fits, rfl⟩
  have columns {first second : Cell} (differ : first.col ≠ second.col) :
      [first].Disjoint [second] := by
    rw [List.singleton_disjoint, List.mem_singleton]
    exact fun same => differ (congrArg Cell.col same)
  have positions : (qubits.zipIdx.map Prod.snd).Nodup := by
    rw [List.zipIdx_map_snd]
    exact List.nodup_range'
  dsimp only [Lattice.Apart, Layout.simpleFrom]
  rw [List.pairwise_append, List.pairwise_map, List.pairwise_map, List.pairwise_map]
  refine ⟨?_, ?_, ?_⟩
  · apply (List.pairwise_map.mp positions).imp
    intro first second differ
    apply columns
    dsimp only
    omega
  · apply List.nodup_range.imp
    intro first second differ
    apply columns
    dsimp only
    omega
  · intro patch isQubit other isMagic
    simp only [List.mem_map] at isQubit isMagic
    rcases isQubit with ⟨⟨id, position⟩, entry, rfl⟩
    rcases isMagic with ⟨_, ⟨index, reserved, rfl⟩, rfl⟩
    exact columns (fits.ne_cols (List.snd_lt_of_mem_zipIdx entry) (List.mem_range.mp reserved))

theorem filterMap_id_simple {qubits : List PatchId} {magic : Nat} {layout : Layout}
    (made : Layout.simple qubits magic = .ok layout) :
    layout.lattice.patches.filterMap Patch.id = qubits := by
  rcases Layout.simple_eq_ok.mp made with ⟨_, rfl⟩
  have named : (fun entry : PatchId × Nat =>
      ((Patch.square ⟨2 * entry.2, 0⟩ .qubit .zero).withId entry.1).id) =
        fun entry => some entry.1 := rfl
  have unnamed : (fun cell : Cell => (Patch.rotatedSquare cell .distillation .magic).id) =
      fun _ => none := rfl
  dsimp only [Layout.simpleFrom]
  rw [List.filterMap_append, List.filterMap_map, List.filterMap_map]
  simp only [Function.comp_def, named, unnamed, List.filterMap_none, List.append_nil]
  rw [List.filterMap_eq_map', List.zipIdx_map_fst]

/-- On the simple layout all qubits start in the state zero. -/
theorem tracks_start {qubits : List PatchId} (distinct : qubits.Nodup) {magic : Nat}
    {layout : Layout} (made : Layout.simple qubits magic = .ok layout) :
    (start layout).Tracks qubits fun _ => .zero := by
  have apart := apart_simple made
  have names := filterMap_id_simple made
  rcases Layout.simple_eq_ok.mp made with ⟨fits, rfl⟩
  constructor
  case plain =>
    intro patch member
    rcases List.mem_append.mp member with isQubit | isMagic
    · rcases List.mem_map.mp isQubit with ⟨entry, _, rfl⟩
      exact (Patch.plain_square _ (by decide) _).withId _
    · rcases List.mem_map.mp isMagic with ⟨cell, _, rfl⟩
      exact Patch.plain_bordered _ (by decide) _ (by decide) (by decide)
  case apart => exact apart
  case stay => exact fun _ _ => List.not_mem_nil
  case held =>
    intro id member
    rcases List.getElem?_of_mem member with ⟨position, located⟩
    have inside := (List.getElem?_eq_some_iff.mp located).1
    refine ⟨(Patch.square ⟨2 * position, 0⟩ .qubit .zero).withId id, ?_, rfl, ?_⟩
    · apply Lattice.names_of_nodup (names.symm ▸ distinct) _ rfl
      apply List.mem_append_left
      exact List.mem_map.mpr ⟨(id, position), List.mem_zipIdx_iff_getElem?.mpr located, rfl⟩
    · intro cell isMagic covered
      rcases List.mem_map.mp isMagic with ⟨index, reserved, rfl⟩
      have same := congrArg Cell.col (List.mem_singleton.mp covered)
      exact fits.ne_cols inside (List.mem_range.mp reserved) same.symm

/-- Wherever a run on the simple layout has come to, the states of all qubits are known. -/
theorem tracks_of_running {supply : IdSupply} {circuit : Circuit}
    {table recorded : OperationTable} (fresh : Function.Injective supply)
    (made : OperationTable.ofCircuit supply circuit = .ok table)
    (run : OperationTable.Recorded table recorded) {layout : Layout}
    (laid : Layout.simple recorded.qubits recorded.magicCount = .ok layout)
    {applied : List Operation} (among : applied ⊆ recorded.running) {timeline : Timeline}
    (performed : applied.foldlM next (start layout) = .ok timeline) :
    timeline.Tracks table.qubits (SymbolicState.afterRun applied) := by
  have original : ∀ operation ∈ applied, ∃ planned ∈ table.operations,
      planned.kind = operation.kind := by
    intro operation member
    exact run.exists_mem (OperationTable.mem_operations_of_mem_running (among member))
  have plain : ∀ operation ∈ applied, operation.PlainPauli := by
    intro operation member patch operator isPauli
    rcases original operation member with ⟨planned, plannedMember, same⟩
    exact OperationTable.plainPauli_of_ofCircuit fresh made planned plannedMember patch operator
      (same.trans isPauli)
  have distinct : table.qubits.Nodup := by
    rw [OperationTable.qubits_of_ofCircuit made]
    exact OperationTable.nodup_registerOf fresh circuit
  have introductions : ∀ operation ∈ applied, ∀ id,
      operation.kind.introduces? = some id → id ∉ table.qubits := by
    intro operation member id introduces
    rcases original operation member with ⟨planned, plannedMember, same⟩
    exact OperationTable.introduces_of_ofCircuit fresh made plannedMember (same ▸ introduces)
  have states : (fun id => applied.foldl (fun state operation => operation.kind.carry id state)
      .zero) = SymbolicState.afterRun applied := by
    funext id
    exact SymbolicState.foldl_carry_eq_afterRun plain
  rw [run.qubits_eq] at laid
  rw [← states]
  exact (tracks_start distinct laid).run introductions performed

/-- In the open slice, wherever a run on the simple layout has come to, a qubit that has been
measured shows that its state is unknown, and any other qubit shows whether an even or an odd
number of X operators has been applied to it. When there is room for all patches, a run comes to
its end exactly when there are numbers for its merges, and on small registers there are. -/
theorem states_of_running {supply : IdSupply} (fresh : Function.Injective supply)
    {work verified : Workpiece} (accepted : Pass.verification.run work = .ok verified)
    (uniform : work.circuit.Uniform) :
    (∀ table, OperationTable.ofCircuit supply work.circuit = .ok table →
      ∀ recorded, OperationTable.Recorded table recorded →
      ∀ layout, Layout.simple recorded.qubits recorded.magicCount = .ok layout →
      ∀ applied, applied <+: recorded.running →
      ∀ timeline, applied.foldlM next (start layout) = .ok timeline →
      ∀ id ∈ table.qubits, ∃ patch, timeline.current.patchOf? id = some patch ∧
        patch.state = some (.idle (SymbolicState.afterRun applied id))) ∧
    ∀ stats, verified.stats = some stats →
      2 * work.circuit.qubits + stats.eighths < 2147483648 →
      ∃ table, OperationTable.ofCircuit supply work.circuit = .ok table ∧
        ∀ recorded, OperationTable.Recorded table recorded →
        ∃ layout, Layout.simple recorded.qubits recorded.magicCount = .ok layout ∧
          ∀ applied, applied <+: recorded.running →
            ((∃ timeline, applied.foldlM next (start layout) = .ok timeline) ↔
              (start layout).RunNumbered applied) ∧
            (20 * work.circuit.qubits + 10 * stats.eighths ≤ Storage.indices + 6 →
              (start layout).RunNumbered applied) := by
  constructor
  · intro table made recorded run layout laid applied first timeline performed id member
    rcases (tracks_of_running fresh made run laid first.subset performed).held id member with
      ⟨patch, names, state, _⟩
    exact ⟨patch, names.patchOf?_eq, state⟩
  · intro stats counted room
    have ready := Pass.ofCircuit_of_verification accepted counted
    rcases OperationTable.exists_ofCircuit supply uniform (by omega) ready with
      ⟨table, made, requests⟩
    refine ⟨table, made, fun recorded run => ?_⟩
    rcases OperationTable.leads_of_running fresh made (requests ▸ room) run with
      ⟨layout, laid, leads⟩
    refine ⟨layout, laid, fun applied first => ⟨leads.exists_foldlM_iff first, fun small => ?_⟩⟩
    have numbered := OperationTable.runNumbered_of_small leads (requests ▸ small)
    rcases first with ⟨rest, split⟩
    rw [← split] at numbered
    exact (runNumbered_append.mp numbered).1

/-- X operators on two qubits and a Z operator on the third, and then a quarter rotation of the
first qubit, up to its merge. -/
theorem states_of_running_flippedThenMerged :
    let circuit : Circuit := ⟨3, [.rotation [.X, .Z, .X] .half, .rotation [.Z, .I, .I] .quarter]⟩
    ∃ table recorded layout timeline,
      OperationTable.ofCircuit PatchId.mk circuit = .ok table ∧
      table.recordAll [(4, .minus), (5, .minus)] = .ok recorded ∧
      Layout.simple recorded.qubits recorded.magicCount = .ok layout ∧
      recorded.running.length = 6 ∧
      (recorded.running.take 5).foldlM next (start layout) = .ok timeline ∧
      ∀ entry ∈ [(PatchId.mk 0, SymbolicState.unknown), (⟨1⟩, .zero), (⟨2⟩, .one)],
        ∃ patch, timeline.current.patchOf? entry.1 = some patch ∧
          patch.state = some (.idle entry.2) := by
  intro circuit
  let work : Workpiece := .start circuit .none
  let table := (OperationTable.ofCircuit PatchId.mk circuit).toOption.getD ⟨[], []⟩
  let outcomes : List (Nat × Outcome) := [(4, .minus), (5, .minus)]
  have made : OperationTable.ofCircuit PatchId.mk circuit = .ok table := by decide
  let shown : List (PatchId × SymbolicState) := [(⟨0⟩, .unknown), (⟨1⟩, .zero), (⟨2⟩, .one)]
  have qubit : ∀ entry ∈ shown, entry.1 ∈ table.qubits := by decide
  have records : ∃ recorded, table.recordAll outcomes = .ok recorded ∧
      recorded.running.length = 6 ∧ ∀ entry ∈ shown,
        SymbolicState.afterRun (recorded.running.take 5) entry.1 = entry.2 :=
    ⟨(table.recordAll outcomes).toOption.getD table, by decide, by decide, by decide⟩
  rcases records with ⟨recorded, ran, length, known⟩
  have accepted : Pass.verification.run work =
      .ok { work with stats := some ⟨1, 1, 0, 0⟩ } := by rfl
  have run := OperationTable.recorded_of_recordAll ran
  have first := List.take_prefix 5 recorded.running
  rcases states_of_running (fun _ _ same => PatchId.mk.inj same) accepted (by decide) with
    ⟨states, plays⟩
  rcases plays _ rfl (by decide) with ⟨found, alsoMade, plays⟩
  have same : found = table := Except.ok.inj (alsoMade.symm.trans made)
  rw [same] at plays
  rcases plays recorded run with ⟨layout, laid, plays⟩
  rcases (plays _ first).1.mpr ((plays _ first).2 (by decide)) with ⟨timeline, performed⟩
  refine ⟨table, recorded, layout, timeline, made, ran, laid, length, performed, ?_⟩
  intro entry member
  rw [← known entry member]
  exact states table made recorded run layout laid _ first timeline performed entry.1
    (qubit entry member)

end Timeline

end LatticeSurgery
