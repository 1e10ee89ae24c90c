import LatticeSurgery.Proofs.Operation.Running
import LatticeSurgery.Proofs.Timeline.Standing

namespace LatticeSurgery

open Result

/-! # Gadgets on a scene

A gadget can be played from start to end whichever of its conditions are met, and it leaves
the scene as it was, apart from a magic state that it has used up. Only a merge without numbers
for its search stops it. -/

namespace Timeline

variable {timeline : Timeline} {first second : List Operation}

/-- There are numbers for the merges of all operations, each on the slice that the operations
before it have left. -/
def RunNumbered : List Operation → Timeline → Prop
  | [], _ => True
  | operation :: rest, timeline =>
      timeline.Numbered operation ∧ ∀ after, timeline.next operation = .ok after →
        RunNumbered rest after

theorem runNumbered_append :
    timeline.RunNumbered (first ++ second) ↔ timeline.RunNumbered first ∧
      ∀ after, first.foldlM next timeline = .ok after → after.RunNumbered second := by
  induction first generalizing timeline with
  | nil =>
      rw [List.nil_append]
      constructor
      · intro numbered
        refine ⟨trivial, fun after same => ?_⟩
        cases same
        exact numbered
      · exact fun numbered => numbered.2 timeline rfl
  | cons operation rest induction =>
      simp only [List.cons_append, RunNumbered, List.foldlM_cons, bind_eq_ok]
      constructor
      · rintro ⟨here, later⟩
        refine ⟨⟨here, fun after performed => (induction.mp (later after performed)).1⟩, ?_⟩
        rintro after ⟨middle, performed, run⟩
        exact (induction.mp (later middle performed)).2 after run
      · rintro ⟨⟨here, later⟩, last⟩
        exact ⟨here, fun middle performed => induction.mpr
          ⟨later middle performed, fun after run => last after ⟨middle, performed, run⟩⟩⟩

/-! Conditions and outcomes do not matter to an operation that is performed. -/

theorem foldlM_next_congr (same : first.map Operation.kind = second.map Operation.kind) :
    first.foldlM next timeline = second.foldlM next timeline := by
  have byKind (operations : List Operation) : operations.foldlM next timeline =
      (operations.map Operation.kind).foldlM (fun before kind =>
        before.next (.pending kind none)) timeline := by
    rw [List.foldlM_map]
    rfl
  rw [byKind, byKind, same]

theorem runNumbered_congr (same : first.map Operation.kind = second.map Operation.kind) :
    timeline.RunNumbered first ↔ timeline.RunNumbered second := by
  induction first generalizing second timeline with
  | nil => rw [List.map_eq_nil_iff.mp same.symm]
  | cons operation rest induction =>
      rcases List.map_eq_cons_iff.mp same.symm with ⟨other, others, rfl, sameKind, sameRest⟩
      simp only [RunNumbered, Numbered, next, perform, sameKind, induction sameRest.symm]

/-- The operations whose conditions are met. -/
def chosen (met : Option Condition → Bool) (operations : List Operation) : List Operation :=
  operations.filter fun operation => met operation.condition

variable {met : Option Condition → Bool}

theorem chosen_append :
    chosen met (first ++ second) = chosen met first ++ chosen met second :=
  List.filter_append first second

theorem chosen_cons_of_met {kind : OperationKind} {condition : Option Condition}
    (isMet : met condition = true) (rest : List Operation) :
    chosen met (.pending kind condition :: rest) = .pending kind condition :: chosen met rest :=
  List.filter_cons_of_pos isMet

theorem chosen_of_unmet {operations : List Operation}
    (unmet : ∀ operation ∈ operations, met operation.condition = false) :
    chosen met operations = [] :=
  List.filter_eq_nil_iff.mpr fun operation member => by simp [unmet operation member]

theorem map_kind_chosen
    (same : first.map OperationTable.plan = second.map OperationTable.plan) :
    (chosen met first).map Operation.kind = (chosen met second).map Operation.kind := by
  have byPlan (operations : List Operation) : (chosen met operations).map Operation.kind =
      ((operations.map OperationTable.plan).filter fun plan => met plan.2).map Prod.fst := by
    rw [List.filter_map, List.map_map]
    rfl
  rw [byPlan, byPlan, same]

private theorem foldlM_zipIdx {σ α ε : Type} {operations : List α} {start : Nat}
    {indexed : σ → α × Nat → Except ε σ} {plain : σ → α → Except ε σ}
    (same : ∀ entry ∈ operations.zipIdx start, ∀ state,
      indexed state entry = plain state entry.1) (state : σ) :
    (operations.zipIdx start).foldlM indexed state = operations.foldlM plain state := by
  induction operations generalizing start state with
  | nil => rfl
  | cons operation rest induction =>
      rw [List.zipIdx_cons, List.foldlM_cons, List.foldlM_cons, same _ List.mem_cons_self]
      congr 1
      funext after
      exact induction (fun entry member => same entry (.tail _ member)) after

/-- A composition performs the operations whose conditions are met. -/
theorem compose_eq_chosen {table : OperationTable}
    (earlier : ReadsEarlier table.operations) (layout : Layout) :
    compose table layout =
      (chosen table.meets table.operations).foldlM next (start layout) := by
  rw [chosen, List.foldlM_filter]
  refine foldlM_zipIdx (fun entry member timeline => ?_) (start layout)
  have found := List.mem_zipIdx_iff_getElem?.mp member
  simp only [advance, table.runsWithin_eq_meets earlier found, liftM_eq_ofFaulty, ofFaulty_ok,
    ok_bind]

end Timeline

namespace OperationTable

variable {table : OperationTable}

/-- The operations that run, in order. -/
def running (table : OperationTable) : List Operation :=
  (table.operations.zipIdx.filter fun entry => table.runs entry.2 = .ok true).map Prod.fst

theorem running_eq_chosen (earlier : ReadsEarlier table.operations) :
    table.running = Timeline.chosen table.meets table.operations := by
  have decided : ∀ entry ∈ table.operations.zipIdx,
      decide (table.runs entry.2 = .ok true) = table.meets entry.1.condition := by
    intro entry member
    have found := List.mem_zipIdx_iff_getElem?.mp member
    have inside : entry.2 < table.size := (List.getElem?_eq_some_iff.mp found).1
    rw [runs_eq_active earlier inside, active_eq_meets earlier found]
    cases table.meets entry.1.condition <;> rfl
  calc table.running
      = (table.operations.zipIdx.map Prod.fst).filter
          fun operation => table.meets operation.condition := by
        rw [running, List.filter_congr decided, List.filter_map]
        rfl
    _ = Timeline.chosen table.meets table.operations := by
        rw [List.zipIdx_map_fst, Timeline.chosen]

/-- A composition performs the operations that run. -/
theorem compose_eq_foldlM (earlier : ReadsEarlier table.operations) (layout : Layout) :
    Timeline.compose table layout =
      table.running.foldlM Timeline.next (Timeline.start layout) := by
  rw [Timeline.compose_eq_chosen earlier, running_eq_chosen earlier]

end OperationTable

namespace Scene

open Timeline

variable {scene middle final : Scene} {timeline : Timeline} {first second : List Operation}

/-- Operations lead to a scene, unless they come to a merge that has no numbers for its
search. No merge has numbers on a wide scene, and only on a crowded scene they can be missing. -/
inductive Leads (scene : Scene) (operations : List Operation) (timeline : Timeline) : Prop
  | reaches {after : Timeline} (numbered : timeline.RunNumbered operations)
      (performed : operations.foldlM next timeline = .ok after) (standing : scene.Standing after)
      (narrow : ∀ factors negative, .measureJoint factors negative ∈ operations.map Operation.kind →
        ¬ scene.Wide)
  | faults {before rest : List Operation} {operation : Operation} {middle : Timeline}
      (split : operations = before ++ operation :: rest)
      (numbered : timeline.RunNumbered before)
      (performed : before.foldlM next timeline = .ok middle)
      (unnumbered : ¬ middle.Numbered operation)
      (failed : middle.next operation = .error (.fault .indexing)) (crowded : scene.Crowded)

namespace Leads

theorem not_runNumbered_of_split {before rest : List Operation} {operation : Operation}
    {between : Timeline} (performed : before.foldlM next timeline = .ok between)
    (unnumbered : ¬ between.Numbered operation) :
    ¬ timeline.RunNumbered (before ++ operation :: rest) := fun numbered =>
  unnumbered ((runNumbered_append.mp numbered).2 between performed).1

/-! What follows for the operations and for their prefixes. -/

section Consequences

variable {operations : List Operation} (leads : scene.Leads operations timeline)

include leads

theorem runNumbered_of_not_crowded (spacious : ¬ scene.Crowded) :
    timeline.RunNumbered operations := by
  cases leads with
  | reaches numbered => exact numbered
  | faults _ _ _ _ _ crowded => exact absurd crowded spacious

theorem foldlM_of_not_runNumbered (unnumbered : ¬ timeline.RunNumbered operations) :
    operations.foldlM next timeline = .error (.fault .indexing) := by
  cases leads with
  | reaches numbered => exact absurd numbered unnumbered
  | faults split _ performed _ failed =>
      rw [split, List.foldlM_append, performed, ok_bind, List.foldlM_cons, failed]
      rfl

theorem standing_of_runNumbered (numbered : timeline.RunNumbered operations) :
    ∃ after, operations.foldlM next timeline = .ok after ∧ scene.Standing after := by
  cases leads with
  | reaches _ performed standing => exact ⟨_, performed, standing⟩
  | faults split _ performed unnumbered =>
      exact absurd (split ▸ numbered) (not_runNumbered_of_split performed unnumbered)

theorem not_runNumbered_of_wide (wide : scene.Wide) {factors : List (PatchId × Pauli)}
    {negative : Bool}
    (merges : .measureJoint factors negative ∈ operations.map Operation.kind) :
    ¬ timeline.RunNumbered operations := by
  cases leads with
  | reaches _ _ _ narrow => exact absurd wide (narrow factors negative merges)
  | faults split _ performed unnumbered =>
      exact split ▸ not_runNumbered_of_split performed unnumbered

/-- The first operations can be performed exactly when there are numbers for their merges. -/
theorem exists_foldlM_iff {applied : List Operation} (first : applied <+: operations) :
    (∃ after, applied.foldlM next timeline = .ok after) ↔ timeline.RunNumbered applied := by
  have shorten {longer : List Operation} {after : Timeline} (shorter : applied <+: longer)
      (numbered : timeline.RunNumbered longer)
      (performed : longer.foldlM next timeline = .ok after) :
      (∃ after, applied.foldlM next timeline = .ok after) ↔ timeline.RunNumbered applied := by
    rcases shorter with ⟨others, rfl⟩
    rw [List.foldlM_append, bind_eq_ok] at performed
    rcases performed with ⟨between, performed, _⟩
    exact iff_of_true ⟨between, performed⟩ (runNumbered_append.mp numbered).1
  cases leads with
  | reaches numbered performed => exact shorten first numbered performed
  | @faults before rest operation middle split numbered performed unnumbered failed =>
      subst split
      rcases List.prefix_or_prefix_of_prefix first (List.prefix_append before _) with
        shorter | ⟨others, rfl⟩
      · exact shorten shorter numbered performed
      · have later := (List.prefix_append_right_inj before).mp first
        cases others with
        | nil =>
            rw [List.append_nil]
            exact iff_of_true ⟨middle, performed⟩ numbered
        | cons other others =>
            rcases List.cons_prefix_cons.mp later with ⟨rfl, _⟩
            refine iff_of_false ?_ (not_runNumbered_of_split performed unnumbered)
            rintro ⟨after, ran⟩
            rw [List.foldlM_append, performed, ok_bind, List.foldlM_cons, failed] at ran
            cases ran

end Consequences

theorem nil (standing : scene.Standing timeline) : scene.Leads [] timeline :=
  .reaches trivial rfl standing fun _ _ merges => absurd merges List.not_mem_nil

/-- Operations on the way to a scene, and those that lead on from there. -/
theorem append (leads : middle.Leads first timeline) (sameQubits : middle.qubits = final.qubits)
    (sameMagic : middle.magic = final.magic)
    (onward : ∀ after, middle.Standing after → final.Leads second after) :
    final.Leads (first ++ second) timeline := by
  cases leads with
  | @faults before rest operation _ split numbered performed unnumbered failed crowded =>
      have longer : first ++ second = before ++ operation :: (rest ++ second) := by
        rw [split, List.append_assoc, List.cons_append]
      rw [Crowded, sameQubits, sameMagic] at crowded
      exact .faults longer numbered performed unnumbered failed crowded
  | @reaches between numbered performed standing narrow =>
      have joined {others : List Operation} (laterNumbered : between.RunNumbered others) :
          timeline.RunNumbered (first ++ others) := by
        refine runNumbered_append.mpr ⟨numbered, fun after again => ?_⟩
        cases performed.symm.trans again
        exact laterNumbered
      have continued (others : List Operation) : (first ++ others).foldlM next timeline =
          others.foldlM next between := by
        rw [List.foldlM_append, performed, ok_bind]
      cases onward between standing with
      | reaches laterNumbered laterPerformed laterStanding laterNarrow =>
          refine .reaches (joined laterNumbered) ((continued second).trans laterPerformed)
            laterStanding fun factors negative merges => ?_
          rw [List.map_append, List.mem_append] at merges
          rcases merges with early | late
          · have spacious := narrow factors negative early
            rwa [Wide, sameQubits] at spacious
          · exact laterNarrow factors negative late
      | @faults before rest operation _ split laterNumbered laterPerformed unnumbered failed
            crowded =>
          have longer : first ++ second = (first ++ before) ++ operation :: rest := by
            rw [split, List.append_assoc]
          exact .faults longer (joined laterNumbered) ((continued before).trans laterPerformed)
            unnumbered failed crowded

theorem cons {operation : Operation} (leads : middle.Leads [operation] timeline)
    (sameQubits : middle.qubits = final.qubits) (sameMagic : middle.magic = final.magic)
    (onward : ∀ after, middle.Standing after → final.Leads second after) :
    final.Leads (operation :: second) timeline :=
  leads.append sameQubits sameMagic onward

/-- Operations that each return to the scene do so one after the other. -/
theorem of_forall {operations : List Operation} (standing : scene.Standing timeline)
    (each : ∀ operation ∈ operations, ∀ before, scene.Standing before →
      scene.Leads [operation] before) : scene.Leads operations timeline := by
  induction operations generalizing timeline with
  | nil => exact .nil standing
  | cons operation rest induction =>
      refine .cons (each operation List.mem_cons_self timeline standing) rfl rfl
        fun after standing => ?_
      exact induction standing fun other member => each other (.tail _ member)

theorem congr (same : first.map Operation.kind = second.map Operation.kind)
    (leads : scene.Leads first timeline) : scene.Leads second timeline := by
  cases leads with
  | reaches numbered performed standing narrow =>
      exact .reaches ((runNumbered_congr same).mp numbered)
        ((foldlM_next_congr same).symm.trans performed) standing (same ▸ narrow)
  | faults split numbered performed unnumbered failed crowded =>
      rw [split, List.map_append, List.map_cons] at same
      rcases List.map_eq_append_iff.mp same.symm with ⟨before, later, rfl, sameBefore, same⟩
      rcases List.map_eq_cons_iff.mp same with ⟨operation, rest, rfl, sameKind, _⟩
      refine .faults rfl ((runNumbered_congr sameBefore.symm).mp numbered)
        ((foldlM_next_congr sameBefore).trans performed) ?_ ?_ crowded
      · rwa [Numbered, sameKind]
      · rwa [next, perform, sameKind]

theorem of_numbered {operation : Operation} (numbered : timeline.Numbered operation)
    (narrow : ∀ factors negative, operation.kind = .measureJoint factors negative → ¬ scene.Wide)
    (performs : ∃ after, timeline.next operation = .ok after ∧ scene.Standing after) :
    scene.Leads [operation] timeline := by
  rcases performs with ⟨after, performed, standing⟩
  refine .reaches ⟨numbered, fun _ _ => trivial⟩ ?_ standing fun factors negative merges => ?_
  · rw [List.foldlM_cons, performed]
    rfl
  · exact narrow factors negative (List.mem_singleton.mp merges).symm

/-- An operation that merges nothing needs no numbers. -/
theorem of_next {operation : Operation}
    (plain : ∀ factors negative, operation.kind ≠ .measureJoint factors negative)
    (performs : ∃ after, timeline.next operation = .ok after ∧ scene.Standing after) :
    scene.Leads [operation] timeline :=
  .of_numbered (fun factors negative same => absurd same (plain factors negative))
    (fun factors negative same => absurd same (plain factors negative)) performs

end Leads

variable {met : Option Condition → Bool} {targets : Targets}

/-- Targets are different qubits with an operator each that has a border. -/
structure Admits (scene : Scene) (targets : Targets) : Prop where
  distinct : (targets.map Prod.fst).Nodup
  qubit : ∀ factor ∈ targets, factor.1 ∈ scene.qubits
  plain : ∀ factor ∈ targets, factor.2 = .X ∨ factor.2 = .Z

namespace Admits

theorem exists_offers (admits : scene.Admits targets) :
    ∀ factor ∈ targets, ∃ cell, scene.Offers factor cell := by
  intro factor member
  rcases List.getElem?_of_mem (admits.qubit factor member) with ⟨position, located⟩
  exact ⟨_, .qubit located (admits.plain factor member)⟩

theorem present (admits : scene.Admits targets) (acts : targets ≠ []) : scene.qubits ≠ [] := by
  rcases List.exists_mem_of_ne_nil targets acts with ⟨factor, member⟩
  exact List.ne_nil_of_mem (admits.qubit factor member)

end Admits

namespace Standing

theorem leads_measureJoint (standing : scene.Standing timeline) (present : scene.qubits ≠ [])
    {factors : List (PatchId × Pauli)} (several : 2 ≤ factors.length)
    (distinct : (factors.map Prod.fst).Nodup)
    (offers : ∀ factor ∈ factors, ∃ cell, scene.Offers factor cell) (negative : Bool)
    (condition : Option Condition) :
    scene.Leads [.pending (.measureJoint factors negative) condition] timeline := by
  by_cases numbered : timeline.Numbered (.pending (.measureJoint factors negative) condition)
  · refine .of_numbered numbered (fun _ _ _ wide => ?_)
      (standing.exists_measureJoint present several distinct offers numbered)
    exact standing.not_numbered_of_wide present several distinct offers wide numbered
  · rcases standing.measureJoint_of_not_numbered present several distinct offers numbered with
      ⟨failed, crowded⟩
    exact .faults (List.nil_append _).symm trivial rfl numbered failed crowded

/-- Corrections by Pauli operators change nothing on the scene. -/
theorem leads_half (standing : scene.Standing timeline) (admits : scene.Admits targets)
    (condition : Option Condition) :
    scene.Leads (chosen met (Gadget.half targets condition)) timeline := by
  refine .of_forall standing fun operation member before standing => ?_
  rcases List.mem_map.mp (List.mem_filter.mp member).1 with ⟨⟨patch, operator⟩, isFactor, rfl⟩
  exact .of_next (by rintro _ _ ⟨⟩) (standing.exists_pauli (admits.qubit _ isFactor))

/-- A merge of the targets with one more patch that is not a qubit. -/
private theorem leads_mergeWith (standing : scene.Standing timeline)
    (admits : scene.Admits targets) (acts : targets ≠ []) {id : PatchId} {cell : Cell}
    (offers : scene.Offers (id, .Z) cell) (fresh : id ∉ scene.qubits)
    (condition : Option Condition) :
    scene.Leads [.pending (Gadget.mergeWith targets id) condition] timeline := by
  refine standing.leads_measureJoint (admits.present acts) ?_ ?_ ?_ _ _
  · have nonempty := List.length_pos_iff.mpr acts
    rw [List.length_append, List.length_singleton]
    omega
  · rw [List.map_append, List.nodup_append]
    refine ⟨admits.distinct, List.nodup_singleton id, ?_⟩
    rintro other member _ same rfl
    rcases List.mem_map.mp member with ⟨factor, factorMember, rfl⟩
    have equal : factor.1 = id := List.mem_singleton.mp same
    exact fresh (equal ▸ admits.qubit factor factorMember)
  · intro factor member
    rcases List.mem_append.mp member with member | member
    · exact admits.exists_offers factor member
    · rw [List.mem_singleton.mp member]
      exact ⟨cell, offers⟩

/-- A quarter rotation places an ancilla patch and takes it away again. -/
theorem leads_quarter (standing : scene.Standing timeline)
    (admits : scene.Admits targets) (acts : targets ≠ []) (unplaced : scene.ancilla = none)
    {ancilla : PatchId} (fresh : ancilla ∉ scene.qubits ++ scene.bound.toList) (base : Nat)
    (negative : Bool) (condition : Option Condition) :
    scene.Leads (chosen met (Gadget.quarter base ancilla targets negative condition))
      timeline := by
  have teleport : scene.Leads (chosen met [.pending (.prepare ancilla .yPlus) condition,
      .pending (Gadget.mergeWith targets ancilla) condition,
      .pending (.measureSingle ancilla .X false) condition]) timeline := by
    cases isMet : met condition with
    | false =>
        rw [chosen_of_unmet (by simp [Operation.pending, isMet])]
        exact .nil standing
    | true =>
        have unknown : ancilla ∉ scene.qubits := fun member =>
          fresh (List.mem_append_left _ member)
        have placedAdmits : { scene with ancilla := some ancilla }.Admits targets :=
          ⟨admits.distinct, admits.qubit, admits.plain⟩
        have same : { scene with ancilla := none } = scene := by
          rw [← unplaced]
        simp only [chosen_cons_of_met isMet]
        refine .cons (.of_next (by rintro _ _ ⟨⟩) (standing.exists_prepare unplaced fresh))
          rfl rfl fun prepared placed => ?_
        refine .cons (placed.leads_mergeWith placedAdmits acts (.ancilla rfl) unknown condition)
          rfl rfl fun merged mergedStanding => ?_
        exact .of_next (by rintro _ _ ⟨⟩) (same ▸ mergedStanding.exists_measureAncilla rfl)
  rw [Gadget.quarter, chosen_append]
  exact teleport.append rfl rfl fun middle standing => standing.leads_half admits _

/-- An eighth rotation uses up a magic state. -/
theorem leads_eighth (standing : scene.Standing timeline)
    (admits : scene.Admits targets) (acts : targets ≠ []) (unplaced : scene.ancilla = none)
    (unbound : scene.bound = none) (remaining : scene.drawn < scene.magic)
    {magic ancilla : PatchId} (magicFresh : magic ∉ scene.qubits)
    (ancillaFresh : ancilla ∉ scene.qubits) (different : ancilla ≠ magic)
    (always : met none = true) (base : Nat) (negative : Bool) :
    { scene with drawn := scene.drawn + 1 }.Leads
      (chosen met (Gadget.eighth base magic ancilla targets negative none)) timeline := by
  have boundAdmits : { scene with bound := some magic }.Admits targets :=
    ⟨admits.distinct, admits.qubit, admits.plain⟩
  have magicUnknown : magic ∉ scene.qubits ++ scene.ancilla.toList := by
    simpa [unplaced] using magicFresh
  have ancillaUnknown : ancilla ∉ scene.qubits ++ [magic] := by
    simp [ancillaFresh, different]
  have same : { scene with drawn := scene.drawn + 1, bound := none } =
      { scene with drawn := scene.drawn + 1 } := by
    rw [← unbound]
  simp only [Gadget.eighth, chosen_append, chosen_cons_of_met always, List.cons_append,
    List.nil_append]
  refine .cons (.of_next (by rintro _ _ ⟨⟩)
    (standing.exists_requestMagic unbound remaining magicUnknown)) rfl rfl
    fun requested bound => ?_
  refine .cons (bound.leads_mergeWith boundAdmits acts (.bound rfl) magicFresh none) rfl
    rfl fun merged mergedStanding => ?_
  refine .append (mergedStanding.leads_quarter boundAdmits acts unplaced ancillaUnknown (base + 2)
    false _) rfl rfl fun turned turnedStanding => ?_
  refine .cons (.of_next (by rintro _ _ ⟨⟩) (same ▸ turnedStanding.exists_measureMagic rfl)) rfl
    rfl fun measured measuredStanding => ?_
  exact measuredStanding.leads_half ⟨admits.distinct, admits.qubit, admits.plain⟩ _

end Standing

end Scene

end LatticeSurgery
