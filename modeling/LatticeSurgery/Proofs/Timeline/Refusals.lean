import LatticeSurgery.Proofs.Timeline.Tracking

namespace LatticeSurgery

open Result Relation

/-! # Operations that fail

An operation that fails leaves the timeline as it was, with one exception: a request for a
magic state draws a cell from the queue before it looks for the patch there. When no patch covers
the cell, the request fails and the cell is lost. This cannot happen as long as every cell of the
queue has an unnamed patch of its own, and a computation that starts so stays so. -/

/-! ## Patches that wait to be named -/

namespace Patch

/-- The patch is no part of a merge region, and no operation can address it. -/
structure Waits (patch : Patch) : Prop where
  unnamed : patch.id = none
  role_ne : patch.role ≠ .ancilla

theorem Touched.waits {before after : Patch} (touched : Touched before after)
    (waits : before.Waits) : after.Waits := by
  have same : after.unstitched.id = before.unstitched.id :=
    congrArg Patch.id (touched.unstitched waits.role_ne)
  exact ⟨same.trans waits.unnamed, touched.role ▸ waits.role_ne⟩

theorem Waits.release {patch : Patch} (waits : patch.Waits) : patch.release.Waits := by
  rw [Patch.release]
  split
  · exact ⟨waits.unnamed, waits.role_ne⟩
  · exact waits

theorem Waits.settle {patch : Patch} (waits : patch.Waits) : patch.settle.Waits := by
  rcases patch.settle_eq with ⟨state, settled, _⟩
  rw [settled]
  exact ⟨waits.unnamed, waits.role_ne⟩

end Patch

namespace Lattice

variable {lattice next : Lattice} {queue : List Cell}

/-- Every cell of a queue is covered by a patch that waits, and no patch covers two of them. -/
structure Reserves (lattice : Lattice) (queue : List Cell) : Prop where
  held : ∀ cell ∈ queue, ∃ patch ∈ lattice.patches, patch.Waits ∧ cell ∈ patch.cells
  own : queue.Pairwise fun cell other =>
    ∀ patch ∈ lattice.patches, cell ∈ patch.cells → other ∉ patch.cells

namespace Reserves

theorem mem_cells (reserves : lattice.Reserves queue) {cell : Cell} (queued : cell ∈ queue) :
    cell ∈ lattice.cells := by
  rcases reserves.held cell queued with ⟨patch, member, _, covered⟩
  exact List.mem_flatMap.mpr ⟨patch, member, covered⟩

/-- A patch is replaced. If it waited on a cell of the queue, it still does so. -/
theorem replace (reserves : lattice.Reserves queue) {before after : List Patch}
    {found changed : Patch} (split : lattice.patches = before ++ found :: after)
    (cells : changed.cells = found.cells)
    (waits : ∀ cell ∈ queue, cell ∈ found.cells → found.Waits → changed.Waits) :
    { lattice with patches := before ++ changed :: after }.Reserves queue where
  held := by
    intro cell queued
    rcases reserves.held cell queued with ⟨patch, member, patchWaits, covered⟩
    rw [split, List.mem_append, List.mem_cons] at member
    rcases member with member | rfl | member
    · exact ⟨patch, List.mem_append_left _ member, patchWaits, covered⟩
    · exact ⟨changed, List.mem_append_right _ List.mem_cons_self,
        waits cell queued covered patchWaits, cells ▸ covered⟩
    · exact ⟨patch, List.mem_append_right _ (.tail _ member), patchWaits, covered⟩
  own := by
    apply reserves.own.imp
    intro cell other apart
    rw [split, List.forall_mem_append, List.forall_mem_cons] at apart
    rw [List.forall_mem_append, List.forall_mem_cons, cells]
    exact apart

/-- New patches stand on free cells, so on none of the queue. -/
theorem add (reserves : lattice.Reserves queue) {patch : Patch}
    (added : lattice.add patch = .ok next) : next.Reserves queue := by
  rcases add_eq_ok_iff.mp added with ⟨free, rfl⟩
  constructor
  case held =>
    intro cell queued
    rcases reserves.held cell queued with ⟨holder, member, waits, covered⟩
    exact ⟨holder, List.mem_append_left _ member, waits, covered⟩
  case own =>
    apply reserves.own.imp_of_mem
    intro cell other queued _ apart
    refine List.forall_mem_append.mpr ⟨apart, List.forall_mem_singleton.mpr ?_⟩
    intro covered
    exact absurd (reserves.mem_cells queued) (isFree_iff.mp (free cell covered))

theorem change (reserves : lattice.Reserves queue)
    (changed : Change Patch.Touched lattice next) : next.Reserves queue := by
  cases changed with
  | add added => exact reserves.add added
  | modify index change touched =>
      cases found : lattice.patches[index]? with
      | none =>
          have outside : lattice.patches.length ≤ index := List.getElem?_eq_none_iff.mp found
          rw [Lattice.modify, List.modify_eq_self outside]
          exact reserves
      | some patch =>
          have isTouched := touched patch found
          rcases exists_split_of_getElem? found with ⟨before, after, split, rfl⟩
          rw [modify_split split]
          exact reserves.replace split isTouched.cells fun _ _ _ => isTouched.waits

theorem changes (reserves : lattice.Reserves queue)
    (changed : ReflTransGen (Change Patch.Touched) lattice next) : next.Reserves queue := by
  induction changed with
  | refl => exact reserves
  | tail _ change induction => exact induction.change change

theorem filter_map (reserves : lattice.Reserves queue) {keep : Patch → Bool}
    {change : Patch → Patch} (kept : ∀ patch, patch.Waits → keep patch = true)
    (waits : ∀ patch, patch.Waits → (change patch).Waits)
    (cells : ∀ patch, (change patch).cells = patch.cells) :
    { lattice with patches := (lattice.patches.filter keep).map change }.Reserves queue where
  held := by
    intro cell queued
    rcases reserves.held cell queued with ⟨patch, member, patchWaits, covered⟩
    have stays := List.mem_filter.mpr ⟨member, kept patch patchWaits⟩
    exact ⟨change patch, List.mem_map_of_mem stays, waits patch patchWaits, cells patch ▸ covered⟩
  own := by
    apply reserves.own.imp
    intro cell other apart changed member
    rcases List.mem_map.mp member with ⟨patch, stays, rfl⟩
    rw [cells]
    exact apart patch (List.mem_filter.mp stays).1

theorem clear (reserves : lattice.Reserves queue) (consumed : List PatchId) :
    (lattice.clearAncilla.clearActive consumed).Reserves queue := by
  have released : lattice.clearAncilla.Reserves queue :=
    reserves.filter_map (fun patch waits => decide_eq_true waits.role_ne)
      (fun patch => Patch.Waits.release) Patch.cells_release
  apply released.filter_map _ (fun patch => Patch.Waits.settle) Patch.cells_settle
  intro patch waits
  simp [isSpent, waits.unnamed]

/-- The patch on the first cell takes a name. It covers no other cell of the queue. -/
theorem name {cell : Cell} (reserves : lattice.Reserves (cell :: queue)) {index : Nat}
    (located : lattice.indexAt? cell = some index) (id : PatchId) :
    (lattice.modify index fun found => found.withId id).Reserves queue := by
  rcases exists_split_of_findIdx? located with ⟨before, found, after, split, covers, rfl⟩
  have member : found ∈ lattice.patches := by
    rw [split]
    exact List.mem_append_right _ List.mem_cons_self
  have covered : cell ∈ found.cells := List.contains_iff_mem.mp covers
  have others := List.pairwise_cons.mp reserves.own
  have rest : lattice.Reserves queue :=
    ⟨fun other queued => reserves.held other (.tail _ queued), others.2⟩
  have sameCells : (found.withId id).cells = found.cells := rfl
  rw [modify_split split]
  apply rest.replace split sameCells
  intro other queued coversOther
  exact absurd coversOther (others.1 other queued found member covered)

end Reserves

end Lattice

/-! ## Failures -/

namespace Timeline

variable {timeline before after : Timeline} {operation : Operation} {failure : Failure LatticeError}

namespace Step

variable {α β : Type}

/-- When the step fails, it leaves the timeline as it was. -/
def Clean (step : Step α) : Prop :=
  ∀ before failure after, step.run before = .error failure after → after = before

theorem clean_throw (failure : Failure LatticeError) : Clean (throw failure : Step α) := by
  intro before _ after run
  cases run
  rfl

theorem clean_lift (attempt : Result LatticeError α) : (lift attempt).Clean := by
  cases attempt with
  | error failure => exact clean_throw failure
  | ok value =>
      intro before failure after run
      cases run

/-- What only reads the timeline may come in front. -/
theorem Clean.lift_bind {rest : α → Step β} (clean : ∀ value, (rest value).Clean)
    (attempt : Result LatticeError α) : (lift attempt >>= rest).Clean := by
  cases attempt with
  | error failure => exact clean_throw failure
  | ok value => exact clean value

theorem Clean.get_bind {rest : Timeline → Step β} (clean : ∀ timeline, (rest timeline).Clean) :
    (get >>= rest).Clean :=
  fun before => clean before before

theorem clean_consume_bind (patch : PatchId) (value : α) :
    (consume patch >>= fun _ => pure value).Clean := by
  intro before failure after run
  cases run

end Step

theorem clean_mark {kind : OperationKind} (other : ∀ patch, kind ≠ .requestMagic patch) :
    (mark kind).Clean := by
  apply Step.Clean.get_bind
  intro timeline
  cases kind with
  | measureSingle patch basis negative =>
      dsimp only
      split
      · exact Step.clean_throw _
      · exact Step.clean_lift _
  | measureJoint factors negative =>
      apply Step.Clean.lift_bind
      intro request
      apply Step.Clean.lift_bind
      intro merged before failure after run
      cases run
  | pauli patch operator => exact Step.clean_lift _
  | prepare patch state =>
      apply Step.Clean.lift_bind
      intro cell
      apply Step.Clean.lift_bind
      intro placed
      exact Step.clean_consume_bind patch placed
  | requestMagic patch => exact absurd rfl (other patch)

/-- A magic state is asked for, and no patch covers the cell that is next in line. -/
def Strands (timeline : Timeline) (kind : OperationKind) : Prop :=
  ∃ patch cell rest, kind = .requestMagic patch ∧ timeline.magicCells = cell :: rest ∧
    cell ∉ timeline.current.cells

theorem mark_requestMagic_failed {patch : PatchId}
    (run : (mark (.requestMagic patch)).run before = .error failure after) :
    before.magicCells = [] ∧ after = before ∨
      ∃ cell rest, before.magicCells = cell :: rest ∧ cell ∉ before.current.cells ∧
        failure = .refused (.notRepresentative cell) ∧
        after = { before with magicCells := rest } := by
  cases stored : before.magicCells with
  | nil =>
      cases (run_mark_of_exhausted stored).symm.trans run
      exact .inl ⟨rfl, rfl⟩
  | cons cell rest =>
      cases located : before.current.indexAt? cell with
      | some index => cases (run_mark_of_located stored located).symm.trans run
      | none =>
          cases (run_mark_of_free stored located).symm.trans run
          have free := Route.indexAt?_eq_none_iff.mp located
          exact .inr ⟨cell, rest, rfl, Lattice.isFree_iff.mp free, rfl, rfl⟩

/-- Everything is left as it was, or everything but the cell that was drawn. -/
theorem perform_failed (failed : (perform operation).run before = .error failure after) :
    ¬ before.Strands operation.kind ∧ after = before ∨
      before.Strands operation.kind ∧ ∃ cell, failure = .refused (.notRepresentative cell) ∧
        before.magicCells = cell :: after.magicCells ∧
        after = { before with magicCells := after.magicCells } := by
  have marking : (mark operation.kind).run before = .error failure after := by
    cases run_bind_eq_error.mp failed with
    | inl marking => exact marking
    | inr closing =>
        rcases closing with ⟨_, _, _, closing⟩
        cases closing
  by_cases asks : ∃ patch, operation.kind = .requestMagic patch
  · rcases asks with ⟨patch, asks⟩
    rw [asks] at marking ⊢
    rcases mark_requestMagic_failed marking with ⟨none, same⟩ | ⟨cell, rest, stored, found⟩
    · left
      refine ⟨?_, same⟩
      rintro ⟨_, _, _, _, stored, _⟩
      cases none.symm.trans stored
    · rcases found with ⟨uncovered, failureEq, rfl⟩
      exact .inr ⟨⟨patch, cell, rest, rfl, stored, uncovered⟩, cell, failureEq, stored, rfl⟩
  · have other : ∀ patch, operation.kind ≠ .requestMagic patch := fun patch same =>
      asks ⟨patch, same⟩
    left
    refine ⟨?_, clean_mark other before failure after marking⟩
    rintro ⟨patch, _, _, same, _⟩
    exact other patch same

/-! ## Runs -/

/-- Every magic state of the queue waits in the slice that is open. -/
def Stocked (timeline : Timeline) : Prop := timeline.current.Reserves timeline.magicCells

namespace Stocked

theorem not_strands (stocked : timeline.Stocked) (kind : OperationKind) :
    ¬ timeline.Strands kind := by
  rintro ⟨patch, cell, rest, _, stored, uncovered⟩
  rw [Stocked, stored] at stocked
  exact uncovered (stocked.mem_cells List.mem_cons_self)

/-- Named patches may change in any way, and a request takes no more than the first cell. -/
theorem marks (stocked : timeline.Stocked) {kind : OperationKind} {marked : Lattice}
    {between : Timeline} (marks : timeline.Marks kind marked between) :
    marked.Reserves between.magicCells := by
  have named {id : PatchId} {change : Patch → Patch} {marked : Lattice}
      (changed : changePatch timeline.current id change = .ok marked)
      (cells : ∀ patch, (change patch).cells = patch.cells) :
      marked.Reserves timeline.magicCells := by
    rcases exists_split_of_changePatch changed with ⟨before, patch, after, split, own, rfl⟩
    apply stocked.replace split (cells patch)
    intro _ _ _ waits
    cases own.symm.trans waits.unnamed
  cases marks with
  | measureSingle changed => exact named changed fun _ => rfl
  | measureJoint _ routed => exact stocked.changes (Lattice.changes_of_route routed)
  | pauli changed => exact named changed fun _ => rfl
  | prepare placed => exact stocked.add placed
  | requestMagic stored located =>
      rw [Stocked, stored] at stocked
      exact stocked.name located _

theorem attempt (stocked : timeline.Stocked) (operation : Operation) :
    (timeline.attempt operation).Stocked := by
  cases run : (perform operation).run timeline with
  | ok value after =>
      have performed : timeline.next operation = .ok after := by rw [next, run]
      rcases exists_marks_of_next performed with ⟨marked, between, marks, _, rfl⟩
      rw [Timeline.attempt, Step.leaves_of_ok run]
      exact (stocked.marks marks).clear _
  | error failure after =>
      rw [Timeline.attempt, Step.leaves_of_error run]
      cases perform_failed run with
      | inl kept =>
          rw [kept.2]
          exact stocked
      | inr drawn => exact absurd drawn.1 (stocked.not_strands operation.kind)

theorem attempts (stocked : timeline.Stocked) (operations : List Operation) :
    (timeline.attempts operations).Stocked := by
  induction operations generalizing timeline with
  | nil => exact stocked
  | cons operation rest induction => exact induction (stocked.attempt operation)

end Stocked

/-- On the simple layout every magic state has a patch of one cell. -/
theorem reserves_simple {qubits : List PatchId} {magic : Nat} {layout : Layout}
    (made : Layout.simple qubits magic = .ok layout) :
    layout.lattice.Reserves layout.magicCells := by
  rcases Layout.simple_eq_ok.mp made with ⟨_, rfl⟩
  constructor
  case held =>
    intro cell queued
    refine ⟨Patch.rotatedSquare cell .distillation .magic, ?_, ?_, List.mem_singleton_self cell⟩
    · exact List.mem_append_right _ (List.mem_map_of_mem queued)
    · exact ⟨rfl, by rintro ⟨⟩⟩
  case own =>
    have distinct : ((List.range magic).map fun (index : Nat) =>
        Cell.mk (Layout.simpleCols qubits.length + index) 0).Nodup := by
      apply List.nodup_range.map
      intro first second same
      rw [Cell.mk.injEq] at same
      omega
    apply distinct.imp
    intro cell other differ patch member covered coversOther
    have single : ∃ own, patch.cells = [own] := by
      cases List.mem_append.mp member with
      | inl isQubit =>
          rcases List.mem_map.mp isQubit with ⟨_, _, rfl⟩
          exact ⟨_, rfl⟩
      | inr isMagic =>
          rcases List.mem_map.mp isMagic with ⟨_, _, rfl⟩
          exact ⟨_, rfl⟩
    rcases single with ⟨own, cells⟩
    rw [cells, List.mem_singleton] at covered coversOther
    exact differ (covered.trans coversOther.symm)

/-- Wherever a computation has got to, an operation that fails leaves the timeline as it was,
unless it asks for a magic state and no patch covers the cell that is next in line. That request
is refused, and it leaves the timeline without the cell. It is never made when the cells of the
layout have patches of their own. -/
theorem unchanged_of_failed {layout : Layout} {operations : List Operation}
    (reached : (start layout).attempts operations = before)
    (failed : (perform operation).run before = .error failure after) :
    (¬ before.Strands operation.kind → after = before) ∧
      (before.Strands operation.kind → ∃ cell, failure = .refused (.notRepresentative cell) ∧
        before.magicCells = cell :: after.magicCells ∧
        after = { before with magicCells := after.magicCells }) ∧
      (layout.lattice.Reserves layout.magicCells → after = before) := by
  have kept (covered : ¬ before.Strands operation.kind) : after = before := by
    cases perform_failed failed with
    | inl same => exact same.2
    | inr drawn => exact absurd drawn.1 covered
  refine ⟨kept, fun strands => ?_, fun reserves => ?_⟩
  · cases perform_failed failed with
    | inl same => exact absurd strands same.1
    | inr drawn => exact drawn.2
  · have stocked : (start layout).Stocked := reserves
    have still := stocked.attempts operations
    rw [reached] at still
    exact kept (still.not_strands operation.kind)

/-- On a simple layout a further magic state is asked for, a patch is measured in the wrong
basis, and a patch that does not exist is to be merged. -/
theorem unchanged_of_failed_simple :
    let layout : Layout := ⟨⟨[(Patch.square ⟨0, 0⟩ .qubit .zero).withId ⟨0⟩,
      Patch.rotatedSquare ⟨2, 0⟩ .distillation .magic], 3, 2⟩, [⟨2, 0⟩], [⟨0, 2⟩, ⟨1, 2⟩]⟩
    let before := (start layout).attempts
      [.pending (.requestMagic ⟨1⟩) none, .pending (.prepare ⟨2⟩ .yPlus) none]
    Layout.simple [⟨0⟩] 1 = .ok layout ∧ before.slices.length = 3 ∧
      (∃ failure, (perform (.pending (.requestMagic ⟨3⟩) none)).run before =
        .error failure before) ∧
      (∃ failure, (perform (.pending (.measureSingle ⟨2⟩ .Y false) none)).run before =
        .error failure before) ∧
      ∃ failure, (perform (.pending (.measureJoint [(⟨0⟩, .Z), (⟨4⟩, .Z)] false) none)).run before =
        .error failure before := by
  intro layout before
  have made : Layout.simple [⟨0⟩] 1 = .ok layout := by decide +kernel
  have reserves := reserves_simple made
  have unchanged {operation : Operation} {failure : Failure LatticeError} {after : Timeline}
      (failed : (perform operation).run before = .error failure after) :
      ∃ failure, (perform operation).run before = .error failure before := by
    have same := (unchanged_of_failed rfl failed).2.2 reserves
    rw [same] at failed
    exact ⟨failure, failed⟩
  exact ⟨made, rfl, unchanged rfl, unchanged rfl, unchanged rfl⟩

/-- The queue has the cell of one patch twice. The patch is taken and used up, and the next
request fails and leaves the queue shorter. -/
theorem not_unchanged_of_failed_listedTwice :
    let layout : Layout :=
      ⟨⟨[Patch.rotatedSquare ⟨0, 0⟩ .distillation .magic], 1, 2⟩, [⟨0, 0⟩, ⟨0, 0⟩], []⟩
    let before := (start layout).attempts
      [.pending (.requestMagic ⟨1⟩) none, .pending (.measureSingle ⟨1⟩ .X false) none]
    ∃ failure after, (perform (.pending (.requestMagic ⟨2⟩) none)).run before =
      .error failure after ∧ before.magicCells = [⟨0, 0⟩] ∧ after.magicCells = [] := by
  intro layout before
  exact ⟨_, _, rfl, rfl, rfl⟩

end Timeline

end LatticeSurgery
