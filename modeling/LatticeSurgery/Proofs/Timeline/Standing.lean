import LatticeSurgery.Proofs.Layout
import LatticeSurgery.Proofs.Timeline.Scene

namespace LatticeSurgery

open Result Route

/-! # Operations on a scene

Each operation that a gadget asks for can be performed on its scene, and leads to the scene
that the next operation of the gadget expects. -/

namespace Lattice

variable {lattice : Lattice} {before after : List Patch} {patch : Patch} {id : PatchId}

/-- With distinct identifiers a patch is the first one of its name. -/
theorem id_ne_of_split (distinct : (lattice.patches.filterMap Patch.id).Nodup)
    (split : lattice.patches = before ++ patch :: after) (own : patch.id = some id) :
    ∀ other ∈ before, other.id ≠ some id := by
  intro other member same
  rw [split, List.filterMap_append, List.filterMap_cons_some own, List.nodup_append] at distinct
  exact distinct.2.2 id (List.mem_filterMap.mpr ⟨other, member, same⟩) id List.mem_cons_self rfl

theorem patchOf?_eq (distinct : (lattice.patches.filterMap Patch.id).Nodup)
    (member : patch ∈ lattice.patches) (own : patch.id = some id) :
    lattice.patchOf? id = some patch := by
  rcases List.append_of_mem member with ⟨before, after, split⟩
  have others := id_ne_of_split distinct split own
  rw [patchOf?, List.find?_eq_some_iff_append]
  exact ⟨decide_eq_true own, before, after, split, by simpa using others⟩

theorem modify_split (split : lattice.patches = before ++ patch :: after)
    (change : Patch → Patch) :
    lattice.modify before.length change =
      { lattice with patches := before ++ change patch :: after } := by
  rw [Lattice.modify, split, List.modify_eq_take_cons_drop (by simp)]
  simp

theorem findIdx?_split (split : lattice.patches = before ++ patch :: after) {test : Patch → Bool}
    (here : test patch = true) (others : ∀ other ∈ before, test other = false) :
    lattice.patches.findIdx? test = some before.length := by
  rw [List.findIdx?_eq_some_iff_getElem, split]
  refine ⟨by simp, by simpa using here, fun position inside => ?_⟩
  rw [List.getElem_append_left inside]
  simpa using others _ (List.getElem_mem inside)

theorem changePatch_eq (distinct : (lattice.patches.filterMap Patch.id).Nodup)
    (split : lattice.patches = before ++ patch :: after) (own : patch.id = some id)
    (change : Patch → Patch) :
    Timeline.changePatch lattice id change =
      .ok { lattice with patches := before ++ change patch :: after } := by
  have others := id_ne_of_split distinct split own
  have located : lattice.indexOf? id = some before.length :=
    findIdx?_split split (decide_eq_true own) fun other member =>
      decide_eq_false (others other member)
  rw [Timeline.changePatch, located]
  exact congrArg Except.ok (modify_split split change)

end Lattice

namespace Timeline

variable {timeline : Timeline} {condition : Option Condition} {marked : Lattice}

@[simp] theorem Step.lift_ok {α : Type} (value : α) : lift (.ok value) = pure value := rfl

/-! What an operation does to the timeline, once it is known how it marks the slice. -/

theorem next_measureSingle {patch : PatchId} {basis : Pauli} {negative : Bool}
    (plain : basis = .X ∨ basis = .Z)
    (changed : changePatch timeline.current patch
      (fun found => found.withState (.measured basis)) = .ok marked) :
    timeline.next (.pending (.measureSingle patch basis negative) condition) =
      .ok (timeline.close marked) := by
  have exposed : (Border.exposing? basis).isNone = false := by
    rcases plain with rfl | rfl <;> rfl
  simp [next, perform, mark, Operation.pending, exposed, changed]

theorem next_measureJoint {patches : List (PatchId × Pauli)} {negative : Bool}
    {request : Request} (located : patches.mapM (locate timeline.current) = .ok request)
    {region : Region}
    (routed : timeline.current.route request = .ok (marked, region)) :
    timeline.next (.pending (.measureJoint patches negative) condition) =
      .ok (timeline.close marked) := by
  have marks : (mark (.measureJoint patches negative)).run timeline = .ok marked timeline := by
    rw [mark, EStateM.run_bind, EStateM.run_get]
    dsimp only
    rw [located, Step.lift_ok, pure_bind, routed]
    rfl
  rw [next, perform, EStateM.run_bind, Operation.pending, marks]
  rfl

/-- There are numbers for the search of a merge, if the operation is one. -/
def Numbered (timeline : Timeline) (operation : Operation) : Prop :=
  ∀ factors negative, operation.kind = .measureJoint factors negative →
    ∀ request, factors.mapM (locate timeline.current) = .ok request →
      Route.Numbered timeline.current request

theorem numbered_measureJoint {patches : List (PatchId × Pauli)} {negative : Bool}
    {request : Request} (located : patches.mapM (locate timeline.current) = .ok request) :
    timeline.Numbered (.pending (.measureJoint patches negative) condition) ↔
      Route.Numbered timeline.current request := by
  constructor
  · exact fun numbered => numbered patches negative rfl request located
  · intro numbered factors sign same found alsoLocated
    cases same
    cases located.symm.trans alsoLocated
    exact numbered

theorem next_measureJoint_of_error {patches : List (PatchId × Pauli)} {negative : Bool}
    {request : Request} (located : patches.mapM (locate timeline.current) = .ok request)
    {failure : Failure LatticeError} (failed : timeline.current.route request = .error failure) :
    timeline.next (.pending (.measureJoint patches negative) condition) = .error failure := by
  have marks : (mark (.measureJoint patches negative)).run timeline = .error failure timeline := by
    rw [mark, EStateM.run_bind, EStateM.run_get]
    dsimp only
    rw [located, Step.lift_ok, pure_bind, failed]
    rfl
  rw [next, perform, EStateM.run_bind, Operation.pending, marks]

theorem next_pauli {patch : PatchId} {operator : Pauli}
    (changed : changePatch timeline.current patch
      (fun found => found.withState (found.heldState.withPauli operator)) = .ok marked) :
    timeline.next (.pending (.pauli patch operator) condition) =
      .ok (timeline.close marked) := by
  simp [next, perform, mark, Operation.pending, changed]

theorem next_prepare {patch : PatchId} {state : SymbolicState} {cell : Cell}
    (found : timeline.freeAncilla = .ok cell)
    (placed : timeline.current.add ((Patch.square cell .qubit state).withId patch) = .ok marked) :
    timeline.next (.pending (.prepare patch state) condition) =
      .ok ({ timeline with consumed := patch :: timeline.consumed }.close marked) := by
  simp [next, perform, mark, Operation.pending, found, placed, Step.consume]

theorem next_requestMagic {patch : PatchId} {cell : Cell} {rest : List Cell}
    (stored : timeline.magicCells = cell :: rest) {index : Nat}
    (located : timeline.current.indexAt? cell = some index) :
    timeline.next (.pending (.requestMagic patch) condition) =
      .ok ({ timeline with magicCells := rest, consumed := patch :: timeline.consumed }.close
        (timeline.current.modify index fun found => found.withId patch)) := by
  simp [next, perform, mark, Operation.pending, stored, located, Step.drawMagic, Step.consume]

end Timeline

/-- A timeline whose current slice shows the scene, with nothing going on in it. -/
structure Scene.Standing (scene : Scene) (timeline : Timeline) : Prop where
  sound : scene.Sound
  lattice : timeline.current.outline = scene.lattice
  idle : ∀ patch ∈ timeline.current.patches, patch.Idle
  magicCells : timeline.magicCells = scene.unboundCells
  ancillaCells : timeline.ancillaCells = (List.range scene.cols).map fun (col : Nat) => ⟨col, 2⟩
  vanish : ∀ id, scene.bound = some id ∨ scene.ancilla = some id → id ∈ timeline.consumed
  stay : ∀ id ∈ scene.qubits, id ∉ timeline.consumed

namespace Scene.Standing

variable {scene : Scene} {timeline : Timeline} {condition : Option Condition}

theorem tidy (standing : scene.Standing timeline) : timeline.current.Tidy :=
  .of_outline (standing.lattice ▸ tidy_lattice standing.sound)

theorem distinct (standing : scene.Standing timeline) :
    (timeline.current.patches.filterMap Patch.id).Nodup := by
  have names : timeline.current.patches.filterMap Patch.id =
      timeline.current.outline.patches.filterMap Patch.id := by
    rw [Lattice.outline, List.filterMap_map]
    rfl
  rw [names, standing.lattice, filterMap_id_patches]
  exact standing.sound.distinct

theorem locate_eq (standing : scene.Standing timeline) {factor : PatchId × Pauli} {cell : Cell}
    (offers : scene.Offers factor cell) :
    Timeline.locate timeline.current factor = .ok (cell, factor.2) := by
  rcases offers.exists_stands with ⟨patch, stands, id, cells⟩
  have distinct : (scene.lattice.patches.filterMap Patch.id).Nodup :=
    filterMap_id_patches ▸ standing.sound.distinct
  have found : timeline.current.cellOf? factor.1 = .ok (some cell) := by
    rw [← Lattice.cellOf?_outline, standing.lattice, Lattice.cellOf?,
      Lattice.patchOf?_eq distinct (mem_patches.mpr stands) id]
    simp [Patch.representative, cells]
  rw [Timeline.locate, found]
  rfl

section Merge

variable (standing : scene.Standing timeline) (present : scene.qubits ≠ [])
  {factors : List (PatchId × Pauli)} {negative : Bool} (several : 2 ≤ factors.length)
  (distinct : (factors.map Prod.fst).Nodup)
  (offers : ∀ factor ∈ factors, ∃ cell, scene.Offers factor cell)

include standing present several distinct offers

/-- A joint measurement asks for patches that can all be reached from the second row. -/
theorem exists_request :
    ∃ request, factors.mapM (Timeline.locate timeline.current) = .ok request ∧
      2 ≤ request.length ∧ (request.map Prod.fst).Nodup ∧
      ∀ entry ∈ request, Accessible timeline.current hub entry := by
  have each : ∀ factor ∈ factors, ∃ entry, Timeline.locate timeline.current factor = .ok entry ∧
      (scene.Offers factor entry.1 ∧ entry.2 = factor.2) := by
    intro factor member
    rcases offers factor member with ⟨cell, offers⟩
    exact ⟨_, standing.locate_eq offers, offers, rfl⟩
  rcases exists_mapM each with ⟨request, located, matched⟩
  refine ⟨request, located, matched.length_eq ▸ several, nodup_cells matched distinct, ?_⟩
  intro entry member
  rcases exists_of_mem_right matched member with ⟨factor, _, offers, basis⟩
  have reached := offers.accessible standing.sound present
  rw [← standing.lattice, ← basis] at reached
  exact reached.of_outline

/-- A joint measurement returns to the scene on which it was made. -/
theorem exists_measureJoint
    (numbered : timeline.Numbered (.pending (.measureJoint factors negative) condition)) :
    ∃ after, timeline.next (.pending (.measureJoint factors negative) condition) = .ok after ∧
      scene.Standing after := by
  rcases standing.exists_request present several distinct offers with
    ⟨request, located, enough, different, accessible⟩
  rw [Timeline.numbered_measureJoint located] at numbered
  rcases exists_route standing.tidy enough different accessible numbered with
    ⟨⟨merged, region⟩, routed, laid⟩
  rcases laid.clearAncilla standing.tidy standing.idle with ⟨same, idle⟩
  refine ⟨_, Timeline.next_measureJoint located routed, ?_⟩
  have settled : (timeline.close merged).current = merged.clearAncilla :=
    Lattice.clearActive_eq_self _ idle
  exact {
    sound := standing.sound
    lattice := by rw [settled, same, standing.lattice]
    idle := by rw [settled]; exact idle
    magicCells := standing.magicCells
    ancillaCells := standing.ancillaCells
    vanish := standing.vanish
    stay := standing.stay }

/-- A joint measurement without numbers for its search ends in a fault, and the scene is
crowded. -/
theorem measureJoint_of_not_numbered
    (unnumbered : ¬ timeline.Numbered (.pending (.measureJoint factors negative) condition)) :
    timeline.next (.pending (.measureJoint factors negative) condition) =
        .error (.fault .indexing) ∧ scene.Crowded := by
  rcases standing.exists_request present several distinct offers with
    ⟨request, located, enough, different, accessible⟩
  rw [Timeline.numbered_measureJoint located] at unnumbered
  have valid := valid_of_accessible standing.tidy enough different accessible
  constructor
  · exact Timeline.next_measureJoint_of_error located
      (route_of_not_numbered standing.tidy.within valid unnumbered)
  · by_contra spacious
    exact unnumbered
      (numbered_of_not_crowded standing.sound present spacious standing.lattice request)

/-- On a wide scene no joint measurement has numbers for its search. -/
theorem not_numbered_of_wide (wide : scene.Wide) :
    ¬ timeline.Numbered (.pending (.measureJoint factors negative) condition) := by
  rcases standing.exists_request present several distinct offers with ⟨request, located, _⟩
  rw [Timeline.numbered_measureJoint located]
  exact Scene.not_numbered_of_wide standing.sound wide standing.lattice request

end Merge

/-! Operations on one patch. -/

theorem exists_split (standing : scene.Standing timeline) {first rest : List Patch}
    {outline : Patch} (outlines : scene.lattice.patches = first ++ outline :: rest) :
    ∃ before patch after, timeline.current.patches = before ++ patch :: after ∧
      before.map Patch.outline = first ∧ patch.outline = outline ∧
      after.map Patch.outline = rest := by
  have same : timeline.current.patches.map Patch.outline = first ++ outline :: rest := by
    rw [← outlines, ← standing.lattice]
    rfl
  rcases List.map_eq_append_iff.mp same with ⟨before, remaining, split, first, same⟩
  rcases List.map_eq_cons_iff.mp same with ⟨patch, after, rfl, outline, rest⟩
  exact ⟨before, patch, after, split, first, outline, rest⟩

theorem exists_split_of_stands (standing : scene.Standing timeline) {outline : Patch}
    (stands : scene.Stands outline) :
    ∃ before patch after, timeline.current.patches = before ++ patch :: after ∧
      patch.outline = outline := by
  rcases List.append_of_mem (mem_patches.mpr stands) with ⟨_, _, outlines⟩
  rcases standing.exists_split outlines with ⟨before, patch, after, split, _, outline, _⟩
  exact ⟨before, patch, after, split, outline⟩

variable {before after : List Patch} {patch : Patch}

theorem idle_beside (standing : scene.Standing timeline)
    (split : timeline.current.patches = before ++ patch :: after) :
    ∀ other ∈ before ++ after, other.Idle := by
  intro other member
  refine standing.idle other (split ▸ ?_)
  rw [List.mem_append] at member
  rw [List.mem_append, List.mem_cons]
  exact member.imp_right .inr

theorem idle_replaced (standing : scene.Standing timeline)
    (split : timeline.current.patches = before ++ patch :: after) {changed : Patch}
    (idle : changed.Idle) : ∀ other ∈ before ++ changed :: after, other.Idle := by
  have beside := List.forall_mem_append.mp (standing.idle_beside split)
  exact List.forall_mem_append.mpr ⟨beside.1, List.forall_mem_cons.mpr ⟨idle, beside.2⟩⟩

/-- When one patch is active, the next slice has it settled, or does not have it. -/
theorem current_close (standing : scene.Standing timeline)
    (split : timeline.current.patches = before ++ patch :: after) (activity : Activity)
    (settled : SymbolicState) :
    (timeline.close { timeline.current with
      patches := before ++ patch.withState (.active activity settled) :: after }).current =
    { timeline.current with patches := before ++
      (if Lattice.isSpent timeline.consumed (patch.withState (.active activity settled)) then []
        else [patch.withState (.idle settled)]) ++ after } := by
  have tidy : Lattice.Tidy { timeline.current with
      patches := before ++ patch.withState (.active activity settled) :: after } := by
    apply Lattice.Tidy.of_outline
    have same : Lattice.outline { timeline.current with
        patches := before ++ patch.withState (.active activity settled) :: after } =
        timeline.current.outline := by
      rw [Lattice.outline, Lattice.outline, split]
      simp
    rw [same, standing.lattice]
    exact tidy_lattice standing.sound
  simp only [Timeline.close, tidy.clearAncilla_eq]
  rw [Lattice.clearActive_eq timeline.consumed rfl (standing.idle_beside split)]
  rfl

/-- An operation on a patch that stays returns to the scene. -/
theorem close_of_unspent (standing : scene.Standing timeline)
    (split : timeline.current.patches = before ++ patch :: after) (activity : Activity)
    (settled : SymbolicState)
    (unspent : Lattice.isSpent timeline.consumed
      (patch.withState (.active activity settled)) = false) :
    scene.Standing (timeline.close { timeline.current with
      patches := before ++ patch.withState (.active activity settled) :: after }) := by
  have current := standing.current_close split activity settled
  rw [unspent, if_neg Bool.false_ne_true, List.append_assoc, List.singleton_append] at current
  refine ⟨standing.sound, ?_, ?_, standing.magicCells, standing.ancillaCells, standing.vanish,
    standing.stay⟩
  · rw [current, ← standing.lattice, Lattice.outline, Lattice.outline, split]
    simp
  · rw [current]
    exact standing.idle_replaced split ⟨settled, rfl⟩

theorem exists_pauli (standing : scene.Standing timeline) {id : PatchId} {operator : Pauli}
    (member : id ∈ scene.qubits) :
    ∃ after, timeline.next (.pending (.pauli id operator) condition) = .ok after ∧
      scene.Standing after := by
  rcases List.getElem?_of_mem member with ⟨position, located⟩
  rcases standing.exists_split_of_stands (.qubit located) with ⟨before, patch, after, split, same⟩
  have own : patch.id = some id := congrArg Patch.id same
  refine ⟨_, Timeline.next_pauli (Lattice.changePatch_eq standing.distinct split own _), ?_⟩
  exact standing.close_of_unspent split _ _ rfl

theorem exists_measureQubit (standing : scene.Standing timeline) {id : PatchId} {basis : Pauli}
    {negative : Bool} (plain : basis = .X ∨ basis = .Z) (member : id ∈ scene.qubits) :
    ∃ after, timeline.next (.pending (.measureSingle id basis negative) condition) = .ok after ∧
      scene.Standing after := by
  rcases List.getElem?_of_mem member with ⟨position, located⟩
  rcases standing.exists_split_of_stands (.qubit located) with ⟨before, patch, after, split, same⟩
  have own : patch.id = some id := congrArg Patch.id same
  refine ⟨_, Timeline.next_measureSingle plain
    (Lattice.changePatch_eq standing.distinct split own _), ?_⟩
  refine standing.close_of_unspent split _ _ ?_
  simp [Lattice.isSpent, Patch.withState, own, standing.stay id member]

/-- A consumed patch vanishes when it is measured. -/
private theorem exists_vanish (standing : scene.Standing timeline) {first rest : List Patch}
    {outline : Patch} (outlines : scene.lattice.patches = first ++ outline :: rest) {id : PatchId}
    (own : outline.id = some id) (consumed : id ∈ timeline.consumed) {negative : Bool} :
    ∃ marked, timeline.next (.pending (.measureSingle id .X negative) condition) =
        .ok (timeline.close marked) ∧
      (timeline.close marked).current.outline = { scene.lattice with patches := first ++ rest } ∧
      ∀ patch ∈ (timeline.close marked).current.patches, patch.Idle := by
  rcases standing.exists_split outlines with ⟨before, patch, after, split, rfl, rfl, rfl⟩
  refine ⟨_, Timeline.next_measureSingle (.inl rfl)
    (Lattice.changePatch_eq standing.distinct split own _), ?_⟩
  have current := standing.current_close split (.measurement .X) .unknown
  have spent : Lattice.isSpent timeline.consumed
      (patch.withState (.active (.measurement .X) .unknown)) = true := by
    have named : patch.id = some id := own
    simp [Lattice.isSpent, Patch.withState, Patch.isMeasured, Patch.heldState,
      PatchState.isMeasured, named, consumed]
  rw [spent, if_pos rfl, List.append_nil] at current
  rw [PatchState.measured, current]
  refine ⟨?_, standing.idle_beside split⟩
  rw [← standing.lattice, Lattice.outline, Lattice.outline, List.map_append]

/-- A magic state is used up. -/
theorem exists_measureMagic (standing : scene.Standing timeline) {id : PatchId} {negative : Bool}
    (named : scene.bound = some id) :
    ∃ after, timeline.next (.pending (.measureSingle id .X negative) condition) = .ok after ∧
      { scene with drawn := scene.drawn + 1, bound := none }.Standing after := by
  have outlines : scene.lattice.patches = scene.qubitOutlines ++
      (magicOutline (scene.magicCell scene.drawn)).withId id ::
        (scene.unboundOutlines ++ scene.ancillaOutlines) := by
    simp [Scene.lattice, boundOutlines, named]
  rcases standing.exists_vanish outlines rfl (standing.vanish id (.inl named)) with
    ⟨marked, performed, outline, idle⟩
  have left : { scene with drawn := scene.drawn + 1, bound := none }.unboundCells =
      scene.unboundCells := by
    simp [unboundCells, Scene.left, named, magicCell, cols]
  refine ⟨_, performed, standing.sound.useMagic named, ?_, idle, ?_, standing.ancillaCells, ?_,
    standing.stay⟩
  · rw [outline]
    simp only [Scene.lattice, boundOutlines, unboundOutlines, left, Option.toList_none,
      List.map_nil, List.append_nil, List.append_assoc]
    rfl
  · exact standing.magicCells.trans left.symm
  · rintro other (bound | placed)
    · cases bound
    · exact standing.vanish other (.inr placed)

/-- An ancilla patch is used up. -/
theorem exists_measureAncilla (standing : scene.Standing timeline) {id : PatchId}
    {negative : Bool} (named : scene.ancilla = some id) :
    ∃ after, timeline.next (.pending (.measureSingle id .X negative) condition) = .ok after ∧
      { scene with ancilla := none }.Standing after := by
  have outlines : scene.lattice.patches = (scene.qubitOutlines ++ scene.boundOutlines ++
      scene.unboundOutlines) ++ ancillaOutline id :: [] := by
    simp [Scene.lattice, ancillaOutlines, named]
  rcases standing.exists_vanish outlines rfl (standing.vanish id (.inr named)) with
    ⟨marked, performed, outline, idle⟩
  refine ⟨_, performed, standing.sound.useAncilla, outline, idle, standing.magicCells,
    standing.ancillaCells, ?_, standing.stay⟩
  rintro other (bound | placed)
  · exact standing.vanish other (.inl bound)
  · cases placed

/-! Patches that appear. -/

private theorem of_idle {next : Scene} (sound : next.Sound) {marked : Lattice}
    (outline : marked.outline = next.lattice) (idle : ∀ patch ∈ marked.patches, patch.Idle)
    (magicCells : timeline.magicCells = next.unboundCells)
    (ancillaCells : timeline.ancillaCells =
      (List.range next.cols).map fun (col : Nat) => ⟨col, 2⟩)
    (vanish : ∀ id, next.bound = some id ∨ next.ancilla = some id → id ∈ timeline.consumed)
    (stay : ∀ id ∈ next.qubits, id ∉ timeline.consumed) :
    next.Standing (timeline.close marked) := by
  have tidy : marked.Tidy := .of_outline (outline ▸ tidy_lattice sound)
  have current : (timeline.close marked).current = marked := by
    simp only [Timeline.close, tidy.clearAncilla_eq]
    exact Lattice.clearActive_eq_self _ idle
  exact ⟨sound, current.symm ▸ outline, current.symm ▸ idle, magicCells, ancillaCells, vanish, stay⟩

private theorem not_mem_consumed (standing : scene.Standing timeline) {id : PatchId}
    (fresh : id ∉ scene.qubits) : ∀ name ∈ scene.qubits, name ∉ id :: timeline.consumed := by
  intro name member consumed
  rcases List.mem_cons.mp consumed with rfl | consumed
  · exact fresh member
  · exact standing.stay name member consumed

/-- The next magic state stands right behind the qubits. -/
private theorem indexAt?_magicCell {before rest : List Patch} {patch : Patch}
    (split : timeline.current.patches = before ++ patch :: rest)
    (first : before.map Patch.outline = scene.qubitOutlines)
    (outline : patch.outline = magicOutline (scene.magicCell scene.drawn)) :
    timeline.current.indexAt? (scene.magicCell scene.drawn) = some before.length := by
  refine Lattice.findIdx?_split split ?_ fun other member => ?_
  · have covered : patch.cells = [scene.magicCell scene.drawn] := congrArg Patch.cells outline
    simp [Patch.covers, covered]
  · have image : other.outline ∈ scene.qubitOutlines := first ▸ List.mem_map_of_mem member
    rcases List.mem_map.mp image with ⟨⟨name, position⟩, entry, same⟩
    have covered : [qubitCell position] = other.cells := congrArg Patch.cells same
    have apart := qubitCell_ne_magicCell (List.mem_zipIdx_iff_getElem?.mp entry) scene.drawn
    simp [Patch.covers, ← covered, apart.symm]

/-- A magic state receives a name. -/
theorem exists_requestMagic (standing : scene.Standing timeline) {id : PatchId}
    (unbound : scene.bound = none) (remaining : scene.drawn < scene.magic)
    (fresh : id ∉ scene.qubits ++ scene.ancilla.toList) :
    ∃ after, timeline.next (.pending (.requestMagic id) condition) = .ok after ∧
      { scene with bound := some id }.Standing after := by
  have cells := unboundCells_eq_cons unbound remaining id
  have outlines : scene.lattice.patches = scene.qubitOutlines ++
      magicOutline (scene.magicCell scene.drawn) ::
        ({ scene with bound := some id }.unboundOutlines ++ scene.ancillaOutlines) := by
    simp [Scene.lattice, boundOutlines, unbound, unboundOutlines, cells]
  rcases standing.exists_split outlines with ⟨before, patch, after, split, first, outline, rest⟩
  have placed := Lattice.modify_split split (fun found => found.withId id)
  have marked : (timeline.current.modify before.length (fun found => found.withId id)).outline =
      { scene with bound := some id }.lattice := by
    have least := standing.lattice
    rw [Lattice.outline, Scene.lattice, Lattice.mk.injEq] at least
    rw [placed, Lattice.outline, List.map_append, List.map_cons, first, Patch.outline_withId,
      outline, rest, least.2.1, least.2.2]
    simp only [Scene.lattice, boundOutlines, Option.toList_some, List.map_cons, List.map_nil,
      List.append_assoc, List.singleton_append]
    rfl
  have patchIdle : patch.Idle := standing.idle patch (split ▸ List.mem_append_right _ (.head _))
  have idle := standing.idle_replaced split (show (patch.withId id).Idle from patchIdle)
  refine ⟨_, Timeline.next_requestMagic (standing.magicCells.trans cells)
    (indexAt?_magicCell split first outline),
    of_idle (standing.sound.bind unbound remaining fresh) marked (placed ▸ idle) rfl
      standing.ancillaCells ?_ (standing.not_mem_consumed fun member =>
        fresh (List.mem_append_left _ member))⟩
  rintro name (bound | placed)
  · exact Option.some.inj bound ▸ List.mem_cons_self
  · exact List.mem_cons_of_mem _ (standing.vanish name (.inr placed))

theorem isFree_ancillaCell (standing : scene.Standing timeline) (unplaced : scene.ancilla = none) :
    timeline.current.isFree ancillaCell = true := by
  rw [← Lattice.isFree_outline, standing.lattice, Lattice.isFree_iff]
  intro member
  rcases coordinates_of_mem standing.sound member with ⟨row, _⟩ | ⟨_, placed⟩
  · simp [ancillaCell] at row
  · exact placed unplaced

theorem freeAncilla_eq (standing : scene.Standing timeline) (unplaced : scene.ancilla = none) :
    timeline.freeAncilla = .ok ancillaCell := by
  have wide : scene.cols ≠ 0 := Nat.ne_of_gt cols_pos
  rcases Nat.exists_eq_succ_of_ne_zero wide with ⟨more, count⟩
  rw [Timeline.freeAncilla, standing.ancillaCells, count, List.range_succ_eq_map, List.map_cons,
    List.find?_cons_of_pos]
  · rfl
  · exact standing.isFree_ancillaCell unplaced

/-- An ancilla patch is placed. -/
theorem exists_prepare (standing : scene.Standing timeline) {id : PatchId} {state : SymbolicState}
    (unplaced : scene.ancilla = none) (fresh : id ∉ scene.qubits ++ scene.bound.toList) :
    ∃ after, timeline.next (.pending (.prepare id state) condition) = .ok after ∧
      { scene with ancilla := some id }.Standing after := by
  have free : ∀ cell ∈ ((Patch.square ancillaCell .qubit state).withId id).cells,
      timeline.current.isFree cell = true :=
    List.forall_mem_singleton.mpr (standing.isFree_ancillaCell unplaced)
  have marked : Lattice.outline { timeline.current with patches := timeline.current.patches ++
      [(Patch.square ancillaCell .qubit state).withId id] } =
        { scene with ancilla := some id }.lattice := by
    have before := standing.lattice
    rw [Lattice.outline, Scene.lattice, Lattice.mk.injEq, ancillaOutlines, unplaced,
      Option.toList_none, List.map_nil, List.append_nil] at before
    rw [Lattice.outline, List.map_append, before.1, before.2.1, before.2.2]
    rfl
  refine ⟨_, Timeline.next_prepare (standing.freeAncilla_eq unplaced) (Lattice.add_eq_ok free),
    of_idle (standing.sound.place unplaced fresh) marked ?_ standing.magicCells
      standing.ancillaCells ?_ (standing.not_mem_consumed fun member =>
        fresh (List.mem_append_left _ member))⟩
  · exact List.forall_mem_append.mpr ⟨standing.idle, List.forall_mem_singleton.mpr ⟨state, rfl⟩⟩
  · rintro name (bound | placed)
    · exact List.mem_cons_of_mem _ (standing.vanish name (.inl bound))
    · exact Option.some.inj placed ▸ List.mem_cons_self

/-- The simple layout sets the first scene. -/
theorem start {qubits : List PatchId} {magic : Nat}
    (sound : Scene.Sound ⟨qubits, magic, 0, none, none⟩) {layout : Layout}
    (made : Layout.simple qubits magic = .ok layout) :
    Scene.Standing ⟨qubits, magic, 0, none, none⟩ (Timeline.start layout) := by
  have cols : Layout.simpleCols qubits.length =
      (Scene.cols ⟨qubits, magic, 0, none, none⟩ : Nat) := by
    have fits := sound.fits
    rw [Scene.cols] at fits
    apply Layout.simpleCols_of_lt
    dsimp only at fits
    omega
  rcases Layout.simple_eq_ok.mp made with ⟨_, rfl⟩
  rw [cols]
  have cells : Scene.unboundCells ⟨qubits, magic, 0, none, none⟩ =
      (List.range magic).map fun (index : Nat) =>
        Cell.mk (Scene.cols ⟨qubits, magic, 0, none, none⟩ + index) 0 := by
    rw [unboundCells, List.range_eq_range']
    rfl
  refine ⟨sound, ?_, ?_, cells.symm, rfl, ?_, fun _ _ => List.not_mem_nil⟩
  · simp only [Timeline.start, Layout.simpleFrom, Lattice.outline, Scene.lattice, boundOutlines,
      ancillaOutlines, Option.toList_none, List.map_nil, List.append_nil, List.map_append,
      List.map_map, qubitOutlines, unboundOutlines, cells]
    rfl
  · intro patch member
    simp only [Timeline.start, Layout.simpleFrom, List.mem_append, List.mem_map] at member
    rcases member with ⟨_, _, rfl⟩ | ⟨_, _, rfl⟩
    · exact ⟨.zero, rfl⟩
    · exact ⟨.magic, rfl⟩
  · rintro name (bound | placed)
    · cases bound
    · cases placed

end Scene.Standing

end LatticeSurgery
