import LatticeSurgery.Proofs.Operation.Lifetime
import LatticeSurgery.Proofs.Route.Release
import LatticeSurgery.Proofs.Timeline.Slices
import LatticeSurgery.Proofs.Timeline.Standing

namespace LatticeSurgery

open Result

/-! # Tracking states

Four things change the state that a slice shows for a qubit: a Pauli operator, a measurement,
the end of a merge, and the end of an activity. Operations leave all qubits alone that they do
not name, so what is known of a qubit can be followed from slice to slice. -/

/-! ## Patches from slice to slice -/

namespace Patch

variable {patch : Patch}

theorem Plain.release_eq (plain : patch.Plain) : patch.release = patch :=
  release_eq_self fun edge member => (plain.border edge member).1

/-- Settling changes nothing but the state. -/
theorem Plain.settle (plain : patch.Plain) : patch.settle.Plain := by
  rcases patch.settle_eq with ⟨state, settled, _⟩
  rw [settled]
  exact ⟨plain.role_ne, plain.border, plain.own, plain.single⟩

theorem Plain.withState (plain : patch.Plain) (state : PatchState) :
    (patch.withState state).Plain :=
  ⟨plain.role_ne, plain.border, plain.own, plain.single⟩

theorem Plain.withId (plain : patch.Plain) (id : PatchId) : (patch.withId id).Plain :=
  ⟨plain.role_ne, plain.border, plain.own, plain.single⟩

/-- A patch that is not active settles as it is. -/
theorem state_settle_of_idle {state : SymbolicState} (idle : patch.state = some (.idle state)) :
    patch.settle.state = some (.idle state) := by
  simp [Patch.settle, idle]

theorem plain_bordered {role : PatchRole} (cell : Cell) (role_ne : role ≠ .ancilla)
    (state : SymbolicState) {vertical horizontal : Border}
    (above : vertical.isStitched = false ∧ vertical ≠ .join)
    (beside : horizontal.isStitched = false ∧ horizontal ≠ .join) :
    (bordered cell role state vertical horizontal).Plain where
  role_ne := role_ne
  border := by simp [bordered, above, beside]
  own := by simp [bordered]
  single := by simp [bordered]

theorem plain_square {role : PatchRole} (cell : Cell) (role_ne : role ≠ .ancilla)
    (state : SymbolicState) : (square cell role state).Plain :=
  plain_bordered cell role_ne state (by decide) (by decide)

theorem mem_cells_of_representative {cell : Cell} (found : patch.representative = .ok cell) :
    cell ∈ patch.cells := by
  rw [representative] at found
  split at found
  · next covered =>
      cases found
      rw [covered]
      exact List.mem_cons_self
  · cases found

theorem id_settle (patch : Patch) : patch.settle.id = patch.id := by
  rcases patch.settle_eq with ⟨state, settled, _⟩
  rw [settled]

theorem cells_settle (patch : Patch) : patch.settle.cells = patch.cells := by
  rcases patch.settle_eq with ⟨state, settled, _⟩
  rw [settled]

theorem id_forgottenIf (forget : Bool) (patch : Patch) :
    (patch.forgottenIf forget).id = patch.id := by
  cases forget <;> rfl

theorem cells_forgottenIf (forget : Bool) (patch : Patch) :
    (patch.forgottenIf forget).cells = patch.cells := by
  cases forget <;> rfl

theorem Plain.forgottenIf (plain : patch.Plain) (forget : Bool) :
    (patch.forgottenIf forget).Plain := by
  cases forget with
  | true => exact plain.withState _
  | false => exact plain

end Patch

namespace Lattice

variable {lattice : Lattice} {id : PatchId} {patch : Patch}

/-- The patch is the only one with its identifier. -/
def Names (lattice : Lattice) (id : PatchId) (patch : Patch) : Prop :=
  lattice.patches.filter (fun other => other.id = some id) = [patch]

namespace Names

theorem mem (names : lattice.Names id patch) : patch ∈ lattice.patches ∧ patch.id = some id := by
  have member : patch ∈ lattice.patches.filter (fun other => other.id = some id) :=
    names ▸ List.mem_singleton_self patch
  exact ⟨(List.mem_filter.mp member).1, of_decide_eq_true (List.mem_filter.mp member).2⟩

theorem eq_of_mem (names : lattice.Names id patch) {other : Patch}
    (member : other ∈ lattice.patches) (own : other.id = some id) : other = patch := by
  have found : other ∈ lattice.patches.filter (fun other => other.id = some id) :=
    List.mem_filter.mpr ⟨member, decide_eq_true own⟩
  rw [names] at found
  exact List.mem_singleton.mp found

theorem patchOf?_eq (names : lattice.Names id patch) : lattice.patchOf? id = some patch := by
  rw [patchOf?, ← List.head?_filter, names]
  rfl

/-- Patches with other identifiers may change as long as they take no new one. -/
theorem replace_other (names : lattice.Names id patch) {before after : List Patch}
    {found changed : Patch} (split : lattice.patches = before ++ found :: after)
    (other : found.id ≠ some id) (changedOther : changed.id ≠ some id) :
    { lattice with patches := before ++ changed :: after }.Names id patch := by
  rw [Names, split, List.filter_append, List.filter_cons_of_neg (by simpa using other)] at names
  rw [Names, List.filter_append, List.filter_cons_of_neg (by simpa using changedOther)]
  exact names

theorem replace (names : lattice.Names id patch) {before after : List Patch}
    {found changed : Patch} (split : lattice.patches = before ++ found :: after)
    (own : found.id = some id) (changedOwn : changed.id = some id) :
    found = patch ∧ { lattice with patches := before ++ changed :: after }.Names id changed := by
  rw [Names, split, List.filter_append, List.filter_cons_of_pos (by simpa using own),
    List.append_eq_singleton_iff] at names
  rcases names with ⟨none, single⟩ | ⟨_, impossible⟩
  · rw [List.cons.injEq] at single
    constructor
    · exact single.1
    · rw [Names, List.filter_append, List.filter_cons_of_pos (by simpa using changedOwn), none,
        single.2]
      rfl
  · cases impossible

theorem append (names : lattice.Names id patch) {added : Patch} (other : added.id ≠ some id) :
    { lattice with patches := lattice.patches ++ [added] }.Names id patch := by
  rw [Names, List.filter_append, names, List.filter_cons_of_neg (by simpa using other)]
  rfl

theorem map (names : lattice.Names id patch) {change : Patch → Patch}
    (ids : ∀ patch, (change patch).id = patch.id) :
    { lattice with patches := lattice.patches.map change }.Names id (change patch) := by
  have same : (fun other : Patch => decide (other.id = some id)) ∘ change =
      fun other : Patch => decide (other.id = some id) := by
    funext other
    rw [Function.comp_apply, ids]
  rw [Names, List.filter_map, same, names]
  rfl

/-- A patch that is not used up is found in the next slice. -/
theorem clearActive (names : lattice.Names id patch) {consumed : List PatchId}
    (stays : id ∉ consumed) : (lattice.clearActive consumed).Names id patch.settle := by
  have kept : { lattice with
      patches := lattice.patches.filter fun patch => !isSpent consumed patch }.Names id patch := by
    have own := names.mem.2
    have unspent : isSpent consumed patch = false := by simp [isSpent, own, stays]
    rw [Names, List.filter_comm, names, List.filter_cons_of_pos (by simp [unspent])]
    rfl
  exact kept.map Patch.id_settle

end Names

/-- With distinct identifiers every patch is the only one of its name. -/
theorem names_of_nodup (distinct : (lattice.patches.filterMap Patch.id).Nodup)
    (member : patch ∈ lattice.patches) (own : patch.id = some id) : lattice.Names id patch := by
  rcases List.append_of_mem member with ⟨before, after, split⟩
  have earlier := id_ne_of_split distinct split own
  have later : ∀ other ∈ after, other.id ≠ some id := by
    intro other otherMember same
    rw [split, List.filterMap_append, List.filterMap_cons_some own, List.nodup_append,
      List.nodup_cons] at distinct
    exact distinct.2.1.1 (List.mem_filterMap.mpr ⟨other, otherMember, same⟩)
  have none {others : List Patch} (differ : ∀ other ∈ others, other.id ≠ some id) :
      others.filter (fun other => other.id = some id) = [] :=
    List.filter_eq_nil_iff.mpr (by simpa using differ)
  rw [Names, split, List.filter_append, none earlier,
    List.filter_cons_of_pos (by simpa using own), none later]
  rfl

theorem mem_of_patchOf? (found : lattice.patchOf? id = some patch) :
    patch ∈ lattice.patches ∧ patch.id = some id := by
  rw [patchOf?] at found
  have passes := List.find?_some found
  exact ⟨List.mem_of_find?_eq_some found, of_decide_eq_true passes⟩

theorem exists_split_of_getElem? {index : Nat} (found : lattice.patches[index]? = some patch) :
    ∃ before after, lattice.patches = before ++ patch :: after ∧ index = before.length := by
  rcases List.getElem?_eq_some_iff.mp found with ⟨inside, rfl⟩
  refine ⟨lattice.patches.take index, lattice.patches.drop (index + 1), ?_, ?_⟩
  · rw [← List.drop_eq_getElem_cons inside, List.take_append_drop]
  · rw [List.length_take, Nat.min_eq_left (Nat.le_of_lt inside)]

theorem exists_split_of_findIdx? {test : Patch → Bool} {index : Nat}
    (located : lattice.patches.findIdx? test = some index) :
    ∃ before patch after, lattice.patches = before ++ patch :: after ∧ test patch = true ∧
      index = before.length := by
  rcases List.findIdx?_eq_some_iff_getElem.mp located with ⟨inside, passes, _⟩
  rcases exists_split_of_getElem? (List.getElem?_eq_getElem inside) with ⟨before, after, split⟩
  exact ⟨before, lattice.patches[index], after, split.1, passes, split.2⟩

theorem Plain.clearAncilla_eq (plain : lattice.Plain) : lattice.clearAncilla = lattice := by
  have kept : lattice.patches.filter (fun patch => decide (patch.role ≠ .ancilla)) =
      lattice.patches :=
    List.filter_eq_self.mpr fun patch member => decide_eq_true (plain patch member).role_ne
  have released : lattice.patches.map Patch.release = lattice.patches := by
    rw [List.map_congr_left, List.map_id]
    exact fun patch member => (plain patch member).release_eq
  rw [clearAncilla, kept, released]

theorem Plain.replace (plain : lattice.Plain) {before after : List Patch} {found changed : Patch}
    (split : lattice.patches = before ++ found :: after)
    (change : found.Plain → changed.Plain) :
    { lattice with patches := before ++ changed :: after }.Plain := by
  rw [Plain, split, List.forall_mem_append, List.forall_mem_cons] at plain
  rw [Plain, List.forall_mem_append, List.forall_mem_cons]
  exact ⟨plain.1, change plain.2.1, plain.2.2⟩

theorem Plain.clearActive (plain : lattice.Plain) (consumed : List PatchId) :
    (lattice.clearActive consumed).Plain := by
  intro patch member
  rcases List.mem_map.mp member with ⟨before, kept, rfl⟩
  exact (plain before (List.mem_filter.mp kept).1).settle

end Lattice

/-! ## Marks -/

namespace Timeline

variable {timeline between after : Timeline} {marked : Lattice}

/-- What an operation can do: the marks that it leaves on the current slice, and the timeline
with the resources that it has drawn. -/
inductive Marks (timeline : Timeline) : OperationKind → Lattice → Timeline → Prop
  | measureSingle {patch : PatchId} {basis : Pauli} {negative : Bool} {marked : Lattice}
      (changed : changePatch timeline.current patch
        (fun found => found.withState (.measured basis)) = .ok marked) :
      Marks timeline (.measureSingle patch basis negative) marked timeline
  | measureJoint {factors : List (PatchId × Pauli)} {negative : Bool} {request : Request}
      {marked : Lattice} {region : Region}
      (located : factors.mapM (locate timeline.current) = .ok request)
      (routed : timeline.current.route request = .ok (marked, region)) :
      Marks timeline (.measureJoint factors negative) marked timeline
  | pauli {patch : PatchId} {operator : Pauli} {marked : Lattice}
      (changed : changePatch timeline.current patch
        (fun found => found.withState (found.heldState.withPauli operator)) = .ok marked) :
      Marks timeline (.pauli patch operator) marked timeline
  | prepare {patch : PatchId} {state : SymbolicState} {cell : Cell} {marked : Lattice}
      (placed : timeline.current.add ((Patch.square cell .qubit state).withId patch) =
        .ok marked) :
      Marks timeline (.prepare patch state) marked
        { timeline with consumed := patch :: timeline.consumed }
  | requestMagic {patch : PatchId} {cell : Cell} {rest : List Cell} {index : Nat}
      (stored : timeline.magicCells = cell :: rest)
      (located : timeline.current.indexAt? cell = some index) :
      Marks timeline (.requestMagic patch)
        (timeline.current.modify index fun found => found.withId patch)
        { timeline with magicCells := rest, consumed := patch :: timeline.consumed }

/-! A request draws a cell before it looks for the patch there. -/

section Requests

variable {patch : PatchId} {cell : Cell} {rest : List Cell}

theorem run_mark_of_exhausted (stored : timeline.magicCells = []) :
    (mark (.requestMagic patch)).run timeline =
      .error (.refused (.exhausted .magicStates)) timeline := by
  simp only [mark, Step.drawMagic, EStateM.run_bind, EStateM.run_get, stored]
  rfl

theorem run_mark_of_free (stored : timeline.magicCells = cell :: rest)
    (free : timeline.current.indexAt? cell = none) :
    (mark (.requestMagic patch)).run timeline =
      .error (.refused (.notRepresentative cell)) { timeline with magicCells := rest } := by
  simp only [mark, Step.drawMagic, EStateM.run_bind, EStateM.run_get, stored, EStateM.run_set,
    EStateM.run_pure, free]
  rfl

theorem run_mark_of_located (stored : timeline.magicCells = cell :: rest) {index : Nat}
    (located : timeline.current.indexAt? cell = some index) :
    (mark (.requestMagic patch)).run timeline =
      .ok (timeline.current.modify index fun found => found.withId patch)
        { timeline with magicCells := rest, consumed := patch :: timeline.consumed } := by
  simp only [mark, Step.drawMagic, EStateM.run_bind, EStateM.run_get, stored, EStateM.run_set,
    EStateM.run_pure, located]
  rfl

end Requests

theorem marks_of_mark {kind : OperationKind}
    (marking : (mark kind).run timeline = .ok marked between) :
    timeline.Marks kind marked between := by
  rcases run_bind_eq_ok.mp marking with ⟨_, _, got, run⟩
  cases got
  cases kind with
  | measureSingle patch basis negative =>
      dsimp only at run
      split at run
      · cases run
      · rcases Step.run_lift_eq_ok.mp run with ⟨changed, rfl⟩
        exact .measureSingle changed
  | measureJoint factors negative =>
      rcases run_bind_eq_ok.mp run with ⟨request, _, locating, run⟩
      rcases run_bind_eq_ok.mp run with ⟨⟨merged, region⟩, _, routing, run⟩
      cases run
      rcases Step.run_lift_eq_ok.mp locating with ⟨located, rfl⟩
      rcases Step.run_lift_eq_ok.mp routing with ⟨routed, rfl⟩
      exact .measureJoint located routed
  | pauli patch operator =>
      rcases Step.run_lift_eq_ok.mp run with ⟨changed, rfl⟩
      exact .pauli changed
  | prepare patch state =>
      rcases run_bind_eq_ok.mp run with ⟨cell, _, finding, run⟩
      rcases run_bind_eq_ok.mp run with ⟨placed, _, adding, run⟩
      rcases Step.run_lift_eq_ok.mp finding with ⟨_, rfl⟩
      rcases Step.run_lift_eq_ok.mp adding with ⟨added, rfl⟩
      cases run
      exact .prepare added
  | requestMagic patch =>
      cases stored : timeline.magicCells with
      | nil => cases (run_mark_of_exhausted stored).symm.trans marking
      | cons cell rest =>
          cases located : timeline.current.indexAt? cell with
          | none => cases (run_mark_of_free stored located).symm.trans marking
          | some index =>
              cases (run_mark_of_located stored located).symm.trans marking
              exact .requestMagic stored located

/-- An operation that is performed closes the current slice with its marks on it. -/
theorem exists_marks_of_next {operation : Operation}
    (performed : timeline.next operation = .ok after) :
    ∃ marked between, timeline.Marks operation.kind marked between ∧
      Relation.ReflTransGen (Lattice.Change Patch.SameCells) timeline.current marked ∧
      after = between.close marked := by
  rw [next, perform, EStateM.run_bind] at performed
  cases marking : (mark operation.kind).run timeline with
  | error failure between =>
      rw [marking] at performed
      cases performed
  | ok marked between =>
      rw [marking] at performed
      cases performed
      exact ⟨marked, between, marks_of_mark marking, changes_of_mark marking, rfl⟩

/-- One patch of a name is replaced. -/
theorem exists_split_of_changePatch {lattice : Lattice} {id : PatchId} {change : Patch → Patch}
    (changed : changePatch lattice id change = .ok marked) :
    ∃ before patch after, lattice.patches = before ++ patch :: after ∧ patch.id = some id ∧
      marked = { lattice with patches := before ++ change patch :: after } := by
  rw [changePatch] at changed
  cases located : lattice.indexOf? id with
  | none =>
      rw [located] at changed
      cases changed
  | some index =>
      rw [located] at changed
      cases changed
      rcases Lattice.exists_split_of_findIdx? located with ⟨before, patch, after, split, own, rfl⟩
      exact ⟨before, patch, after, split, of_decide_eq_true own, Lattice.modify_split split change⟩

theorem locate_eq_ok {lattice : Lattice} {factor : PatchId × Pauli} {entry : Cell × Pauli}
    (located : locate lattice factor = .ok entry) :
    ∃ patch ∈ lattice.patches, patch.id = some factor.1 ∧ entry.1 ∈ patch.cells := by
  cases found : lattice.patchOf? factor.1 with
  | none =>
      rw [locate, Lattice.cellOf?, found] at located
      cases located
  | some patch =>
      rcases Lattice.mem_of_patchOf? found with ⟨member, own⟩
      refine ⟨patch, member, own, ?_⟩
      cases represented : patch.representative with
      | error fault =>
          simp only [locate, Lattice.cellOf?, found, represented] at located
          cases located
      | ok cell =>
          simp only [locate, Lattice.cellOf?, found, represented] at located
          cases located
          exact Patch.mem_cells_of_representative represented

end Timeline

/-! ## Merges -/

namespace Route

open Timeline

variable {lattice merged : Lattice} {factors : List (PatchId × Pauli)} {request : Request}
  {region : Region}

theorem Merged.clearAncilla_eq {contacts : List (Cell × Cell)} {ancillas : List Cell}
    (laid : Merged lattice contacts ancillas merged) (plain : lattice.Plain) :
    merged.clearAncilla = { lattice with
      patches := lattice.patches.map fun patch => (patch.stitchedIn contacts).release } := by
  rcases laid.patches with ⟨added, split, areAncillas⟩
  have dropped : added.filter (fun patch => decide (patch.role ≠ .ancilla)) = [] := by
    apply List.filter_eq_nil_iff.mpr
    intro patch member
    rcases exists_of_mem_right areAncillas member with ⟨_, _, isAncilla⟩
    simp [isAncilla.role]
  have kept : (lattice.patches.map (Patch.stitchedIn contacts)).filter
      (fun patch => decide (patch.role ≠ .ancilla)) =
        lattice.patches.map (Patch.stitchedIn contacts) := by
    apply List.filter_eq_self.mpr
    intro patch member
    rcases List.mem_map.mp member with ⟨before, beforeMember, rfl⟩
    exact decide_eq_true (plain before beforeMember).role_ne
  rw [Lattice.clearAncilla, split, List.filter_append, kept, dropped, List.append_nil,
    List.map_map, laid.leastRows, laid.leastCols]
  rfl

/-- The patches that are asked for are stitched, and no others. -/
theorem Routed.hasStitched_iff (plain : lattice.Plain) (apart : lattice.Apart)
    {source : Cell × Pauli} {targets : Request} (valid : Valid lattice (source :: targets))
    (located : factors.mapM (locate lattice) = .ok (source :: targets))
    {routes : List ((Cell × Pauli) × Span)}
    (routed : Routed lattice source targets routes region merged) {id : PatchId} {patch : Patch}
    (names : lattice.Names id patch) :
    (patch.stitchedIn (contactsOf routes)).hasStitched = true ↔ id ∈ factors.map Prod.fst := by
  have matched := mapM_eq_ok.mp located
  rcases names.mem with ⟨member, own⟩
  constructor
  · intro stitched
    rcases List.any_eq_true.mp stitched with ⟨_, image, isStitched⟩
    rcases List.mem_map.mp image with ⟨edge, edgeMember, rfl⟩
    have contact := (Edge.isStitched_stitchedIn
      ((plain patch member).border edge edgeMember)).mp isStitched
    rcases routed.exists_uses plain apart member edgeMember contact with ⟨entry, uses, found⟩
    rcases exists_of_mem_right matched (routed.mem_of_uses uses) with
      ⟨factor, factorMember, locates⟩
    rcases locate_eq_ok locates with ⟨other, otherMember, otherOwn, covered⟩
    cases found.symm.trans (apart.patchAt?_eq_some_iff.mpr ⟨otherMember, covered⟩)
    cases own.symm.trans otherOwn
    exact List.mem_map_of_mem factorMember
  · intro asked
    rcases List.mem_map.mp asked with ⟨factor, factorMember, rfl⟩
    rcases exists_of_mem_left matched factorMember with ⟨entry, entryMember, locates⟩
    rcases locate_eq_ok locates with ⟨other, otherMember, otherOwn, covered⟩
    cases names.eq_of_mem otherMember otherOwn
    have found := apart.patchAt?_eq_some_iff.mpr ⟨otherMember, covered⟩
    rcases routed.exists_stitched plain apart valid entryMember with
      ⟨after, _, afterFound, _, ⟨edge, edgeMember, isStitched⟩, _⟩
    cases (routed.merged.patchAt?_of_patchAt? apart found).symm.trans afterFound
    exact List.any_eq_true.mpr ⟨edge, edgeMember, isStitched⟩

/-- When a merge is over, the patches that were asked for are in no known state and all others
are as they were. -/
theorem exists_clearAncilla_of_route (plain : lattice.Plain) (apart : lattice.Apart)
    (located : factors.mapM (locate lattice) = .ok request)
    (routed : lattice.route request = .ok (merged, region)) :
    ∃ touched : Patch → Bool,
      merged.clearAncilla = { lattice with
        patches := lattice.patches.map fun patch => patch.forgottenIf (touched patch) } ∧
      ∀ id patch, lattice.Names id patch → (touched patch = true ↔ id ∈ factors.map Prod.fst) := by
  have performed := run_lay_of_route routed
  have valid := valid_of_run_lay performed
  match request, valid with
  | [], valid => exact absurd valid.several (by simp)
  | source :: targets, valid =>
      rcases exists_routed plain apart valid performed with ⟨routes, routed⟩
      refine ⟨fun patch => (patch.stitchedIn (contactsOf routes)).hasStitched, ?_, ?_⟩
      · rw [routed.merged.clearAncilla_eq plain, Lattice.mk.injEq]
        refine ⟨List.map_congr_left ?_, rfl, rfl⟩
        intro patch member
        exact Patch.release_stitchedIn (plain patch member).role_ne
          (fun edge edgeMember => ((plain patch member).border edge edgeMember).1) _
      · intro id patch names
        exact routed.hasStitched_iff plain apart valid located names

end Route

/-! ## Steps -/

/-- What is known of a patch after an operation, from what was known before. -/
def OperationKind.carry (id : PatchId) (state : SymbolicState) : OperationKind → SymbolicState
  | .measureSingle patch _ _ => if patch = id then .unknown else state
  | .measureJoint factors _ => if id ∈ factors.map Prod.fst then .unknown else state
  | .pauli patch operator => if patch = id then state.apply operator else state
  | .prepare .. | .requestMagic _ => state

namespace Timeline

variable {timeline between after : Timeline} {marked : Lattice} {qubits : List PatchId}
  {known : PatchId → SymbolicState}

/-- Nothing goes on in the current slice, and every qubit has one patch in a known state, which
is never taken for a magic state and never used up. -/
structure Tracks (timeline : Timeline) (qubits : List PatchId)
    (known : PatchId → SymbolicState) : Prop where
  plain : timeline.current.Plain
  apart : timeline.current.Apart
  stay : ∀ id ∈ qubits, id ∉ timeline.consumed
  held : ∀ id ∈ qubits, ∃ patch, timeline.current.Names id patch ∧
    patch.state = some (.idle (known id)) ∧ ∀ cell ∈ timeline.magicCells, cell ∉ patch.cells

namespace Tracks

/-- The marks of an operation are settled when the slice is closed. -/
theorem close {released : Lattice} (cleared : marked.clearAncilla = released)
    (plain : released.Plain) (apart : marked.Apart) (stay : ∀ id ∈ qubits, id ∉ between.consumed)
    (held : ∀ id ∈ qubits, ∃ patch, released.Names id patch ∧
      patch.settle.state = some (.idle (known id)) ∧
      ∀ cell ∈ between.magicCells, cell ∉ patch.cells) :
    (between.close marked).Tracks qubits known where
  plain := by
    rw [Timeline.close, cleared]
    exact plain.clearActive _
  apart := apart.clear between.consumed
  stay := stay
  held id member := by
    rcases held id member with ⟨patch, names, state, elsewhere⟩
    refine ⟨patch.settle, ?_, state, ?_⟩
    · rw [Timeline.close, cleared]
      exact names.clearActive (stay id member)
    · rw [patch.cells_settle]
      exact elsewhere

/-- Operations on one patch. -/
theorem changePatch (tracks : timeline.Tracks qubits known) {id : PatchId}
    {change : Patch → PatchState}
    (changed : Timeline.changePatch timeline.current id
      (fun found => found.withState (change found)) = .ok marked) (apart : marked.Apart)
    {settled : PatchId → SymbolicState}
    (own : ∀ patch : Patch, patch.state = some (.idle (known id)) →
      (patch.withState (change patch)).settle.state = some (.idle (settled id)))
    (others : ∀ other, other ≠ id → settled other = known other) :
    (timeline.close marked).Tracks qubits settled := by
  rcases exists_split_of_changePatch changed with ⟨before, found, after, split, foundOwn, rfl⟩
  have plain := tracks.plain.replace split fun foundPlain => foundPlain.withState (change found)
  apply Tracks.close plain.clearAncilla_eq plain apart tracks.stay
  intro other member
  rcases tracks.held other member with ⟨patch, names, state, elsewhere⟩
  by_cases same : other = id
  · subst same
    have changedOwn : (found.withState (change found)).id = some other := foundOwn
    rcases names.replace split foundOwn changedOwn with ⟨rfl, replaced⟩
    exact ⟨_, replaced, own found state, elsewhere⟩
  · have differs : found.id ≠ some other := by
      intro equal
      exact same (Option.some.inj (equal.symm.trans foundOwn))
    refine ⟨patch, names.replace_other split differs differs, ?_, elsewhere⟩
    rw [others other same]
    exact Patch.state_settle_of_idle state

/-- A merge leaves nothing known of the patches that it joins. -/
theorem route (tracks : timeline.Tracks qubits known) {factors : List (PatchId × Pauli)}
    {request : Request} {region : Region}
    (located : factors.mapM (locate timeline.current) = .ok request)
    (routed : timeline.current.route request = .ok (marked, region)) (apart : marked.Apart) :
    (timeline.close marked).Tracks qubits fun id =>
      if id ∈ factors.map Prod.fst then .unknown else known id := by
  rcases Route.exists_clearAncilla_of_route tracks.plain tracks.apart located routed with
    ⟨touched, cleared, asked⟩
  apply Tracks.close cleared _ apart tracks.stay
  · intro id member
    rcases tracks.held id member with ⟨patch, names, state, elsewhere⟩
    have carried := names.map fun patch => patch.id_forgottenIf (touched patch)
    refine ⟨_, carried, ?_, ?_⟩
    · by_cases involved : id ∈ factors.map Prod.fst
      · rw [if_pos involved, (asked id patch names).mpr involved]
        rfl
      · have untouched : touched patch = false :=
          Bool.of_not_eq_true fun isTouched => involved ((asked id patch names).mp isTouched)
        rw [if_neg involved, untouched]
        exact Patch.state_settle_of_idle state
    · rw [patch.cells_forgottenIf]
      exact elsewhere
  · intro patch member
    rcases List.mem_map.mp member with ⟨before, beforeMember, rfl⟩
    exact (tracks.plain before beforeMember).forgottenIf _

theorem stay_cons (tracks : timeline.Tracks qubits known) {id : PatchId} (fresh : id ∉ qubits) :
    ∀ other ∈ qubits, other ∉ id :: timeline.consumed := by
  intro other member consumed
  rcases List.mem_cons.mp consumed with rfl | consumed
  · exact fresh member
  · exact tracks.stay other member consumed

/-- A patch appears that is no qubit. -/
theorem add (tracks : timeline.Tracks qubits known) {cell : Cell} {state : SymbolicState}
    {id : PatchId} (fresh : id ∉ qubits)
    (placed : timeline.current.add ((Patch.square cell .qubit state).withId id) = .ok marked)
    (apart : marked.Apart) :
    ({ timeline with consumed := id :: timeline.consumed }.close marked).Tracks qubits known := by
  rcases Lattice.add_eq_ok_iff.mp placed with ⟨_, rfl⟩
  have plain : Lattice.Plain { timeline.current with
      patches := timeline.current.patches ++ [(Patch.square cell .qubit state).withId id] } :=
    List.forall_mem_append.mpr ⟨tracks.plain,
      List.forall_mem_singleton.mpr (Patch.Plain.withId (Patch.plain_square _ (by decide) _) id)⟩
  apply Tracks.close plain.clearAncilla_eq plain apart (tracks.stay_cons fresh)
  intro other member
  rcases tracks.held other member with ⟨patch, names, held, elsewhere⟩
  have differs : ((Patch.square cell .qubit state).withId id).id ≠ some other := by
    intro equal
    exact fresh (Option.some.inj equal ▸ member)
  exact ⟨patch, names.append differs, Patch.state_settle_of_idle held, elsewhere⟩

/-- A magic state that is taken is no qubit. -/
theorem takeMagic (tracks : timeline.Tracks qubits known) {cell : Cell} {rest : List Cell}
    {index : Nat} {id : PatchId} (fresh : id ∉ qubits)
    (stored : timeline.magicCells = cell :: rest)
    (located : timeline.current.indexAt? cell = some index)
    (apart : (timeline.current.modify index fun found => found.withId id).Apart) :
    ({ timeline with magicCells := rest, consumed := id :: timeline.consumed }.close
      (timeline.current.modify index fun found => found.withId id)).Tracks qubits known := by
  rcases Lattice.exists_split_of_findIdx? located with ⟨before, found, after, split, covers, rfl⟩
  rw [Lattice.modify_split split] at apart ⊢
  have plain := tracks.plain.replace split fun foundPlain => foundPlain.withId id
  apply Tracks.close plain.clearAncilla_eq plain apart (tracks.stay_cons fresh)
  intro other member
  rcases tracks.held other member with ⟨patch, names, held, elsewhere⟩
  rw [stored, List.forall_mem_cons] at elsewhere
  have foundOther : found.id ≠ some other := by
    intro own
    have isMember : found ∈ timeline.current.patches := by
      rw [split]
      exact List.mem_append_right _ List.mem_cons_self
    rw [← names.eq_of_mem isMember own] at elsewhere
    exact elsewhere.1 (List.contains_iff_mem.mp covers)
  have renamedOther : (found.withId id).id ≠ some other := by
    intro equal
    exact fresh (Option.some.inj equal ▸ member)
  exact ⟨patch, names.replace_other split foundOther renamedOther,
    Patch.state_settle_of_idle held, elsewhere.2⟩

/-- What is known of the qubits after an operation. -/
theorem next (tracks : timeline.Tracks qubits known) {operation : Operation}
    (fresh : ∀ id, operation.kind.introduces? = some id → id ∉ qubits)
    (performed : timeline.next operation = .ok after) :
    after.Tracks qubits fun id => operation.kind.carry id (known id) := by
  rcases exists_marks_of_next performed with ⟨marked, between, marks, changes, rfl⟩
  have apart := tracks.apart.changes changes
  generalize operation.kind = kind at marks fresh
  cases marks with
  | measureSingle changed =>
      apply tracks.changePatch changed apart
      · intro patch _
        rw [OperationKind.carry, if_pos rfl]
        rfl
      · intro other differs
        exact if_neg differs.symm
  | measureJoint located routed => exact tracks.route located routed apart
  | pauli changed =>
      apply tracks.changePatch changed apart
      · intro patch state
        rw [OperationKind.carry, if_pos rfl, Patch.heldState, state]
        rfl
      · intro other differs
        exact if_neg differs.symm
  | prepare placed => exact tracks.add (fresh _ rfl) placed apart
  | requestMagic stored located => exact tracks.takeMagic (fresh _ rfl) stored located apart

/-- What is known of the qubits after a run. -/
theorem run (tracks : timeline.Tracks qubits known) {operations : List Operation}
    (fresh : ∀ operation ∈ operations, ∀ id, operation.kind.introduces? = some id → id ∉ qubits)
    (performed : operations.foldlM Timeline.next timeline = .ok after) :
    after.Tracks qubits fun id =>
      operations.foldl (fun state operation => operation.kind.carry id state) (known id) := by
  induction operations generalizing timeline known with
  | nil =>
      cases performed
      exact tracks
  | cons operation rest induction =>
      rw [List.foldlM_cons, bind_eq_ok] at performed
      rcases performed with ⟨middle, first, performed⟩
      rw [List.forall_mem_cons] at fresh
      exact induction (tracks.next fresh.1 first) fresh.2 performed

end Tracks

end Timeline

end LatticeSurgery
