import LatticeSurgery.Proofs.Operation.Readiness
import LatticeSurgery.Proofs.Timeline.Playing
import LatticeSurgery.Proofs.Timeline.Slices

namespace LatticeSurgery

open Result

/-! # Composition on the simple layout

A table of a circuit that is ready can be composed on the simple layout with any outcomes,
and in the end the qubits are back where they started. -/

/-! ## Slices

Every operation that runs closes one slice. -/

namespace Timeline

theorem length_closed_of_next {timeline after : Timeline} {operation : Operation}
    (performed : timeline.next operation = .ok after) :
    after.closed.length = timeline.closed.length + 1 := by
  rw [next, perform, EStateM.run_bind] at performed
  cases marking : (mark operation.kind).run timeline with
  | error failure between =>
      rw [marking] at performed
      cases performed
  | ok marked between =>
      rw [marking] at performed
      cases performed
      have kept := (keeps_mark operation.kind timeline).1
      rw [Step.leaves_of_ok marking] at kept
      exact congrArg (·.length + 1) kept

/-- The number of slices is the number of operations that run, and one more. -/
theorem length_closed_of_advances {table : OperationTable} {entries : List (Operation × Nat)}
    {timeline final : Timeline} (run : entries.foldlM (advance table) timeline = .ok final) :
    final.closed.length =
      timeline.closed.length + entries.countP fun entry => table.active entry.2 := by
  induction entries generalizing timeline with
  | nil =>
      cases run
      rfl
  | cons entry rest induction =>
      rw [List.foldlM_cons, bind_eq_ok] at run
      rcases run with ⟨middle, advanced, run⟩
      rw [induction run, List.countP_cons]
      simp only [advance, liftM_eq_ofFaulty, bind_eq_ok, ofFaulty_eq_ok_iff] at advanced
      rcases advanced with ⟨runs, decided, advanced⟩
      have active : table.active entry.2 = runs := by
        rw [OperationTable.active, decided]
        rfl
      rw [active]
      cases runs with
      | true =>
          rw [length_closed_of_next advanced, if_pos rfl]
          omega
      | false =>
          cases advanced
          rfl

end Timeline

namespace OperationTable

/-- The number of operations that run. -/
def runningCount (table : OperationTable) : Nat :=
  (List.range table.size).countP fun index => table.runs index = .ok true

theorem runningCount_eq (table : OperationTable) :
    table.runningCount = table.operations.zipIdx.countP fun entry => table.active entry.2 := by
  have positions : table.operations.zipIdx.countP (fun entry => table.active entry.2) =
      (List.range table.size).countP table.active := by
    rw [List.range_eq_range', size, ← List.zipIdx_map_snd, List.countP_map]
    rfl
  rw [positions, runningCount]
  refine List.countP_congr fun index member => ?_
  have inside : index < table.operations.length := List.mem_range.mp member
  have found := List.getElem?_eq_getElem inside
  simp only [runs, operationAt, found, ok_bind, active, decide_eq_true_eq]
  cases table.runsWithin (table.size + 1) index with
  | ok answer => simp [Except.toOption]
  | error fault => simp [Except.toOption]

end OperationTable

/-! ## Whole tables -/

namespace Scene

open Timeline

variable {scene : Scene} {timeline : Timeline} {met : Option Condition → Bool} {targets : Targets}

theorem admits_of_targets (distinct : scene.qubits.Nodup) {symbols : PauliString}
    (withoutY : symbols.containsY = false)
    (found : TableDraft.targets scene.qubits symbols = .ok targets) : scene.Admits targets where
  distinct := TableDraft.targets_nodup found distinct
  qubit := fun _ member => TableDraft.mem_qubits_of_mem_targets found (List.mem_map_of_mem member)
  plain := by
    intro factor member
    rcases exists_of_mem_right (TableDraft.targets_eq_ok.mp found) member with
      ⟨entry, entryMember, _, same⟩
    rcases PauliString.mem_support.mp entryMember with ⟨symbol, acts⟩
    have inside := PauliString.lt_length_of_symbolAt (symbol ▸ acts)
    rw [PauliString.symbolAt_of_lt inside] at symbol
    have present : entry.2 ∈ symbols := symbol ▸ List.getElem_mem inside
    rw [← same]
    cases basis : entry.2 with
    | I => exact absurd basis acts
    | X => exact .inl rfl
    | Y =>
        rw [basis] at present
        simp [PauliString.containsY, present] at withoutY
    | Z => exact .inr rfl

/-- The gadget of a block leads back to the scene, whatever conditions are met. -/
theorem Standing.leads_of_replaces (standing : scene.Standing timeline)
    (admits : scene.Admits targets) (unplaced : scene.ancilla = none)
    (unbound : scene.bound = none) {supply : IdSupply} {base used fresh : Nat} {kind : BlockKind}
    {operations : List Operation}
    (replaces : Gadget.Replaces supply base used targets kind operations fresh)
    (remaining : scene.drawn + magicRequests operations ≤ scene.magic)
    (unknown : ∀ index, used ≤ index → supply index ∉ scene.qubits)
    (different : supply (used + 1) ≠ supply used) (always : met none = true) :
    { scene with drawn := scene.drawn + magicRequests operations }.Leads (chosen met operations)
      timeline := by
  cases replaces with
  | @single patch basis negative only =>
      have member : (patch, basis) ∈ targets := only ▸ List.mem_singleton_self _
      rw [chosen_cons_of_met always]
      exact .of_next (by rintro _ _ ⟨⟩)
        (standing.exists_measureQubit (admits.plain _ member) (admits.qubit _ member))
  | joint several =>
      have acts : targets ≠ [] := by
        rintro rfl
        simp at several
      rw [chosen_cons_of_met always]
      exact standing.leads_measureJoint (admits.present acts) several admits.distinct
        admits.exists_offers _ _
  | identity => exact .nil standing
  | half acts =>
      rw [Gadget.magicRequests_half]
      exact standing.leads_half admits none
  | quarter acts =>
      rw [Gadget.magicRequests_quarter]
      have ancillaUnknown : supply used ∉ scene.qubits ++ scene.bound.toList := by
        simpa [unbound] using unknown used (Nat.le_refl _)
      exact standing.leads_quarter admits acts unplaced ancillaUnknown _ _ none
  | eighth acts =>
      rw [Gadget.magicRequests_eighth] at remaining ⊢
      exact standing.leads_eighth admits acts unplaced unbound remaining
        (unknown used (Nat.le_refl _)) (unknown (used + 1) (Nat.le_succ _)) different always _ _

end Scene

namespace OperationTable

open Timeline

variable {supply : IdSupply} {circuit : Circuit} {table recorded : OperationTable}

/-- Without qubits there is nothing to rotate. -/
theorem magicCount_eq_zero (made : ofCircuit supply circuit = .ok table)
    (empty : circuit.qubits = 0) : table.magicCount = 0 := by
  have none : registerOf supply circuit = [] := by
    rw [registerOf, empty]
    rfl
  refine (ofCircuit_induction (fun draft => magicRequests draft.operations = 0) rfl ?_ made).elim ?_
  · intro draft targets operations used block _ count _ found replaces
    have idle : targets = [] := by
      refine List.eq_nil_iff_forall_not_mem.mpr fun factor member => ?_
      have qubit := TableDraft.mem_qubits_of_mem_targets found (List.mem_map_of_mem member)
      rw [none] at qubit
      cases qubit
    rw [TableDraft.append, magicRequests_append, count, Nat.zero_add]
    generalize block.kind = kind at replaces
    cases replaces with
    | single | joint | identity => rfl
    | half => exact Gadget.magicRequests_half _ _
    | quarter => exact Gadget.magicRequests_quarter _ _ _ _ _
    | eighth acts => exact absurd idle acts
  · rintro draft ⟨count, rfl⟩
    exact count

/-- The scene after a number of magic states have been used up. -/
def scene (supply : IdSupply) (circuit : Circuit) (magic drawn : Nat) : Scene :=
  ⟨registerOf supply circuit, magic, drawn, none, none⟩

theorem sound_scene (fresh : Function.Injective supply)
    (made : ofCircuit supply circuit = .ok table)
    (room : 2 * circuit.qubits + table.magicCount < 2147483648) :
    (scene supply circuit table.magicCount 0).Sound := by
  refine ⟨?_, Nat.zero_le _, ?_⟩
  · simpa [scene] using nodup_registerOf fresh circuit
  · have zero := magicCount_eq_zero made
    simp only [Scene.cols, scene, length_registerOf]
    omega

/-- A whole table leads to the scene on which all magic states are used up. -/
theorem leads_of_ofCircuit (fresh : Function.Injective supply)
    (made : ofCircuit supply circuit = .ok table)
    {met : Option Condition → Bool} (always : met none = true) {start : Timeline}
    (standing : (scene supply circuit table.magicCount 0).Standing start) :
    (scene supply circuit table.magicCount table.magicCount).Leads (chosen met table.operations)
      start := by
  have distinct := nodup_registerOf fresh circuit
  refine (ofCircuit_induction (fun draft => circuit.qubits ≤ draft.used ∧
    (magicRequests draft.operations ≤ table.magicCount →
      (scene supply circuit table.magicCount (magicRequests draft.operations)).Leads
        (chosen met draft.operations) start))
    ⟨Nat.le_refl _, fun _ => .nil standing⟩ ?_ made).elim ?_
  · rintro draft targets operations used block _ ⟨enough, leads⟩ withoutY found replaces
    refine ⟨Nat.le_trans enough (Nat.le_add_right _ _), fun remaining => ?_⟩
    rw [TableDraft.append, magicRequests_append] at remaining ⊢
    rw [chosen_append]
    refine (leads (Nat.le_trans (Nat.le_add_right _ _) remaining)).append rfl rfl
      fun before standing => ?_
    exact standing.leads_of_replaces (Scene.admits_of_targets distinct withoutY found) rfl rfl
      replaces remaining (fun index later => not_mem_registerOf fresh (Nat.le_trans enough later))
      (fun same => Nat.succ_ne_self _ (fresh same)) always
  · rintro draft ⟨⟨_, leads⟩, rfl⟩
    exact leads (Nat.le_refl _)

/-- On the simple layout the operations of a recorded table that run lead to the last scene. -/
theorem leads_of_running (fresh : Function.Injective supply)
    (made : ofCircuit supply circuit = .ok table)
    (room : 2 * circuit.qubits + table.magicCount < 2147483648)
    (run : Recorded table recorded) :
    ∃ layout, Layout.simple recorded.qubits recorded.magicCount = .ok layout ∧
      (scene supply circuit table.magicCount table.magicCount).Leads recorded.running
        (Timeline.start layout) := by
  have register : recorded.qubits = registerOf supply circuit :=
    run.qubits_eq.trans (qubits_of_ofCircuit made)
  have sound := sound_scene fresh made room
  have stored := Layout.simple_of_fits (Layout.fits_of_lt sound.fits)
  have standing := Scene.Standing.start sound stored
  have always : recorded.meets none = true := rfl
  rw [register, run.magicCount_eq]
  refine ⟨_, stored, ?_⟩
  rw [running_eq_chosen (run.readsEarlier (readsEarlier_of_ofCircuit made))]
  exact (leads_of_ofCircuit fresh made always standing).congr
    (map_kind_chosen run.map_plan_eq.symm)

/-- On a small register there are numbers for all merges. -/
theorem runNumbered_of_small {drawn : Nat} {operations : List Operation} {timeline : Timeline}
    (leads : (scene supply circuit table.magicCount drawn).Leads operations timeline)
    (small : 20 * circuit.qubits + 10 * table.magicCount ≤ Storage.indices + 6) :
    timeline.RunNumbered operations := by
  apply leads.runNumbered_of_not_crowded
  simp only [Scene.Crowded, scene, length_registerOf]
  omega

/-- On a large register there are numbers for no merge. -/
theorem not_runNumbered_of_large {drawn : Nat} {operations : List Operation} {timeline : Timeline}
    (leads : (scene supply circuit table.magicCount drawn).Leads operations timeline)
    (large : Storage.indices + 8 < 14 * circuit.qubits) {factors : List (PatchId × Pauli)}
    {negative : Bool}
    (merges : .measureJoint factors negative ∈ operations.map Operation.kind) :
    ¬ timeline.RunNumbered operations := by
  apply leads.not_runNumbered_of_wide _ merges
  simpa only [Scene.Wide, scene, length_registerOf] using large

end OperationTable

namespace Timeline

theorem slices_of_compose {table : OperationTable} {layout : Layout} {timeline : Timeline}
    (composed : compose table layout = .ok timeline) :
    timeline.slices.length = table.runningCount + 1 := by
  have closed := length_closed_of_advances composed
  rw [slices, List.length_append, List.length_reverse, List.length_singleton, closed,
    OperationTable.runningCount_eq]
  simp [start]

/-- The table of a circuit that is ready is composed on the simple layout, whatever outcomes
are recorded, as long as there are numbers for its merges. Every operation that runs opens a
slice, all magic states are used, and in the last slice there are the qubits and nothing else.
Merges without numbers end in a fault. On small registers there are none, and on large ones there
are no others. -/
theorem compose_of_ready {supply : IdSupply} (fresh : Function.Injective supply)
    {work verified : Workpiece} {stats : CircuitStats}
    (accepted : Pass.verification.run work = .ok verified)
    (counted : verified.stats = some stats) (uniform : work.circuit.Uniform)
    (room : 2 * work.circuit.qubits + stats.eighths < 2147483648) :
    ∃ table, OperationTable.ofCircuit supply work.circuit = .ok table ∧
      table.qubits.length = work.circuit.qubits ∧ table.magicCount = stats.eighths ∧
      ∀ recorded, OperationTable.Recorded table recorded →
        ∃ layout, Layout.simple recorded.qubits recorded.magicCount = .ok layout ∧
          ((start layout).RunNumbered recorded.running →
            ∃ timeline, compose recorded layout = .ok timeline ∧
              timeline.slices.length = recorded.runningCount + 1 ∧
              timeline.magicCells = [] ∧
              timeline.slices.getLast? = some timeline.current ∧
              (∀ patch ∈ timeline.current.patches, patch.Idle) ∧
              timeline.current.patches.map Patch.outline =
                table.qubits.zipIdx.map fun (id, position) =>
                  ((Patch.square ⟨2 * position, 0⟩ .qubit .zero).withId id).outline) ∧
          (¬ (start layout).RunNumbered recorded.running →
            compose recorded layout = .error (.fault .indexing)) ∧
          (20 * work.circuit.qubits + 10 * stats.eighths ≤ Storage.indices + 6 →
            (start layout).RunNumbered recorded.running) ∧
          (Storage.indices + 8 < 14 * work.circuit.qubits → ∀ factors negative,
            .measureJoint factors negative ∈ recorded.running.map Operation.kind →
            ¬ (start layout).RunNumbered recorded.running) := by
  have ready := Pass.ofCircuit_of_verification accepted counted
  rcases OperationTable.exists_ofCircuit supply uniform (by omega) ready with
    ⟨table, made, requests⟩
  have register := OperationTable.qubits_of_ofCircuit made
  refine ⟨table, made, ?_, requests, fun recorded run => ?_⟩
  · rw [register, OperationTable.length_registerOf]
  have earlier := run.readsEarlier (OperationTable.readsEarlier_of_ofCircuit made)
  rcases OperationTable.leads_of_running fresh made (requests ▸ room) run with
    ⟨layout, stored, leads⟩
  refine ⟨layout, stored, fun numbered => ?_, fun unnumbered => ?_, fun small => ?_,
    fun large factors negative merges => ?_⟩
  · rcases leads.standing_of_runNumbered numbered with ⟨timeline, performed, standing⟩
    have composed := (OperationTable.compose_eq_foldlM earlier layout).trans performed
    have used : (OperationTable.scene supply work.circuit table.magicCount
        table.magicCount).unboundCells = [] := by
      simp [OperationTable.scene, Scene.unboundCells, Scene.left]
    refine ⟨timeline, composed, slices_of_compose composed, standing.magicCells.trans used, ?_,
      standing.idle, ?_⟩
    · rw [slices, List.getLast?_concat]
    · have outlines := congrArg Lattice.patches standing.lattice
      rw [Scene.lattice, Scene.unboundOutlines, used] at outlines
      simp only [OperationTable.scene, Scene.boundOutlines, Scene.ancillaOutlines,
        Option.toList_none, List.map_nil, List.append_nil] at outlines
      rw [register]
      exact outlines
  · rw [OperationTable.compose_eq_foldlM earlier]
    exact leads.foldlM_of_not_runNumbered unnumbered
  · exact OperationTable.runNumbered_of_small leads (requests ▸ small)
  · exact OperationTable.not_runNumbered_of_large leads large merges

/-- An eighth rotation, whose first correction is left out, a quarter rotation and a
measurement. -/
theorem compose_of_ready_mixed :
    let circuit : Circuit := ⟨2, [.rotation [.X, .Z] .eighth, .rotation [.Z, .I] .quarter,
      .measurement [.X, .X] true]⟩
    ∃ table recorded layout timeline,
      OperationTable.ofCircuit PatchId.mk circuit = .ok table ∧
      table.recordAll [(1, .plus), (7, .minus), (11, .minus), (12, .minus)] = .ok recorded ∧
      Layout.simple recorded.qubits recorded.magicCount = .ok layout ∧
      compose recorded layout = .ok timeline ∧ timeline.slices.length = 10 ∧
      timeline.magicCells = [] ∧
      timeline.current.patches.map Patch.cells = [[⟨0, 0⟩], [⟨2, 0⟩]] := by
  intro circuit
  let work : Workpiece := .start circuit .none
  let table := (OperationTable.ofCircuit PatchId.mk circuit).toOption.getD ⟨[], []⟩
  let outcomes : List (Nat × Outcome) := [(1, .plus), (7, .minus), (11, .minus), (12, .minus)]
  have made : OperationTable.ofCircuit PatchId.mk circuit = .ok table := by decide
  have records : ∃ recorded, table.recordAll outcomes = .ok recorded ∧
      recorded.runningCount = 9 :=
    ⟨(table.recordAll outcomes).toOption.getD table, by decide, by decide⟩
  rcases records with ⟨recorded, ran, running⟩
  have accepted : Pass.verification.run work =
      .ok { work with stats := some ⟨0, 1, 1, 1⟩ } := by rfl
  have qubits : table.qubits = [⟨0⟩, ⟨1⟩] := by decide
  rcases compose_of_ready (fun _ _ same => PatchId.mk.inj same) accepted rfl (by decide)
    (by decide) with ⟨found, alsoMade, _, _, composes⟩
  have same : found = table := Except.ok.inj (alsoMade.symm.trans made)
  rw [same] at composes
  rcases composes recorded (OperationTable.recorded_of_recordAll ran) with
    ⟨layout, stored, composes, _, numbered, _⟩
  rcases composes (numbered (by decide)) with ⟨timeline, composed, slices, magic, _, _, outlines⟩
  refine ⟨table, recorded, layout, timeline, made, ran, stored, composed, ?_, magic, ?_⟩
  · rw [slices, running]
  · rw [qubits] at outlines
    have cells := congrArg (List.map Patch.cells) outlines
    rw [List.map_map] at cells
    exact cells

/-- One measurement of all qubits along Z. -/
def measureAll (count : Nat) : Circuit := ⟨count, [.measurement (List.replicate count .Z) false]⟩

section MeasureAll

variable {count : Nat} (several : 2 ≤ count)

theorem uniform_measureAll (count : Nat) : (measureAll count).Uniform := by
  intro block member
  rw [List.mem_singleton.mp member]
  exact List.length_replicate

include several

theorem ofCircuit_measureAll : CircuitStats.ofCircuit (measureAll count) = .ok ⟨0, 0, 0, 1⟩ := by
  have withoutY : PauliString.containsY (List.replicate count .Z) = false := by
    simp [PauliString.containsY]
  have acts : PauliString.isIdentity (List.replicate count .Z) = false := by
    simp [PauliString.isIdentity]
    omega
  rw [CircuitStats.ofCircuit, measureAll, List.zipIdx_singleton, List.foldlM_cons,
    CircuitStats.count, Block.containsY, Block.isIdentity, Block.measurement, withoutY, acts]
  rfl

/-- The only operation is a merge of all qubits. -/
theorem operations_measureAll {supply : IdSupply} {table : OperationTable}
    (made : OperationTable.ofCircuit supply (measureAll count) = .ok table) :
    ∃ targets, table.operations = [.pending (.measureJoint targets false) none] := by
  rcases OperationTable.ofCircuit_eq_ok.mp made with ⟨_, draft, folded, rfl⟩
  rw [measureAll, List.zipIdx_singleton, List.foldlM_cons, bind_eq_ok] at folded
  rcases folded with ⟨_, added, same⟩
  cases same
  rcases TableDraft.replaces_of_addBlock added with
    ⟨_, targets, operations, used, found, rfl, replaces⟩
  have weight : targets.length = count := by
    rw [TableDraft.length_targets found, PauliString.weight, Block.measurement]
    simp [List.countP_replicate]
  refine ⟨targets, ?_⟩
  cases replaces with
  | single only =>
      rw [only] at weight
      simp at weight
      omega
  | joint => rfl

theorem compose_measureAll {supply : IdSupply} (fresh : Function.Injective supply)
    (room : 2 * count < 2147483648) (large : Storage.indices + 8 < 14 * count) :
    ∃ table layout, OperationTable.ofCircuit supply (measureAll count) = .ok table ∧
      Layout.simple table.qubits table.magicCount = .ok layout ∧
      compose table layout = .error (.fault .indexing) := by
  rcases OperationTable.exists_ofCircuit supply (uniform_measureAll count) room
    (ofCircuit_measureAll several) with ⟨table, made, requests⟩
  have earlier := OperationTable.readsEarlier_of_ofCircuit made
  rcases operations_measureAll several made with ⟨targets, only⟩
  have merges : .measureJoint targets false ∈ table.running.map Operation.kind := by
    rw [OperationTable.running_eq_chosen earlier, only]
    exact List.mem_singleton_self _
  have spacious : 2 * count + table.magicCount < 2147483648 := by
    rw [requests]
    exact room
  rcases OperationTable.leads_of_running fresh made spacious .refl with ⟨layout, stored, leads⟩
  refine ⟨table, layout, made, stored, ?_⟩
  rw [OperationTable.compose_eq_foldlM earlier]
  apply leads.foldlM_of_not_runNumbered
  exact OperationTable.not_runNumbered_of_large leads large merges

end MeasureAll

/-- A circuit that is ready is not composed when its only merge has no numbers. -/
theorem not_compose_measureAll :
    (measureAll 306783379).Uniform ∧
      (∃ verified, Pass.verification.run (.start (measureAll 306783379) .none) = .ok verified ∧
        verified.stats = some ⟨0, 0, 0, 1⟩) ∧
      2 * (measureAll 306783379).qubits + 0 < 2147483648 ∧
      ∃ table layout,
        OperationTable.ofCircuit PatchId.mk (measureAll 306783379) = .ok table ∧
        Layout.simple table.qubits table.magicCount = .ok layout ∧
        compose table layout = .error (.fault .indexing) := by
  have accepted : Pass.verification.run (.start (measureAll 306783379) .none) =
      .ok { Workpiece.start (measureAll 306783379) .none with stats := some ⟨0, 0, 0, 1⟩ } := by
    rw [Pass.run, Workpiece.start, ofCircuit_measureAll (by decide)]
    rfl
  refine ⟨uniform_measureAll _, ⟨_, accepted, rfl⟩, by decide, ?_⟩
  exact compose_measureAll (by decide) (fun _ _ same => PatchId.mk.inj same) (by decide) (by decide)

end Timeline

end LatticeSurgery
