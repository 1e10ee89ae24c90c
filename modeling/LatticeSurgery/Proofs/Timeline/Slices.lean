import LatticeSurgery.Proofs.Lattice.Changes
import LatticeSurgery.Timeline

namespace LatticeSurgery

open Result Relation

/-! # Slices over whole runs

An operation that is performed closes the current slice, and one that fails leaves all slices
as they are. Whatever operations are tried, no two patches of a slice share a cell, nothing
goes on in the slice that is open, and closed slices do not change. -/

namespace Patch

/-- The patch takes part in no merge, and nothing happens to it. -/
structure Quiet (patch : Patch) : Prop where
  role_ne : patch.role ≠ .ancilla
  plain : ∀ edge ∈ patch.edges, edge.border.isStitched = false
  inactive : ∀ activity next, patch.state ≠ some (.active activity next)

theorem plain_release (patch : Patch) :
    ∀ edge ∈ patch.release.edges, edge.border.isStitched = false := by
  intro edge member
  rw [release] at member
  cases stitched : patch.hasStitched with
  | true =>
      rw [if_pos stitched] at member
      rcases List.mem_map.mp member with ⟨⟨cell, side, border⟩, _, rfl⟩
      cases border <;> rfl
  | false =>
      rw [if_neg (by simp [stitched])] at member
      rw [hasStitched, List.any_eq_false] at stitched
      exact Bool.of_not_eq_true (stitched edge member)

theorem role_release (patch : Patch) : patch.release.role = patch.role := by
  rw [release]
  split <;> rfl

theorem cells_release (patch : Patch) : patch.release.cells = patch.cells := by
  rw [release]
  split <;> rfl

/-- Settling changes nothing but an active state. -/
theorem settle_eq (patch : Patch) : ∃ state, patch.settle = { patch with state := state } ∧
    ∀ activity next, state ≠ some (.active activity next) := by
  rcases patch with ⟨role, state, cells, edges, id⟩
  cases state with
  | none =>
      refine ⟨none, rfl, ?_⟩
      rintro _ _ ⟨⟩
  | some state =>
      cases state with
      | idle held =>
          refine ⟨some (.idle held), rfl, ?_⟩
          rintro _ _ ⟨⟩
      | active activity next =>
          refine ⟨some (.idle next), rfl, ?_⟩
          rintro _ _ ⟨⟩

end Patch

namespace Lattice

variable {lattice : Lattice}

def Quiet (lattice : Lattice) : Prop := ∀ patch ∈ lattice.patches, patch.Quiet

/-- Removing patches keeps the others apart. -/
theorem Apart.filter_map (apart : lattice.Apart) (keep : Patch → Bool) {change : Patch → Patch}
    (cells : ∀ patch, (change patch).cells = patch.cells) :
    { lattice with patches := (lattice.patches.filter keep).map change }.Apart := by
  apply List.pairwise_map.mpr
  apply (apart.filter keep).imp
  intro patch other separate
  rwa [cells, cells]

theorem Apart.clear (apart : lattice.Apart) (consumed : List PatchId) :
    (lattice.clearAncilla.clearActive consumed).Apart := by
  have released : lattice.clearAncilla.Apart := apart.filter_map _ Patch.cells_release
  apply released.filter_map
  intro patch
  rcases patch.settle_eq with ⟨state, settled, _⟩
  rw [settled]

/-- Whatever happened in a slice is over in the next one. -/
theorem quiet_clear (lattice : Lattice) (consumed : List PatchId) :
    (lattice.clearAncilla.clearActive consumed).Quiet := by
  intro patch member
  rcases List.mem_map.mp member with ⟨released, isReleased, rfl⟩
  rcases List.mem_map.mp (List.mem_filter.mp isReleased).1 with ⟨original, isOriginal, rfl⟩
  have role_ne := of_decide_eq_true (List.mem_filter.mp isOriginal).2
  rcases original.release.settle_eq with ⟨state, settled, inactive⟩
  rw [settled]
  exact ⟨original.role_release ▸ role_ne, original.plain_release, inactive⟩

end Lattice

namespace Timeline

/-! ## Steps that fail

A step leaves a timeline behind whether or not it fails. -/

namespace Step

variable {α β : Type}

/-- The timeline that a step leaves behind. -/
def leaves (step : Step α) (before : Timeline) : Timeline :=
  match step.run before with
  | .ok _ after => after
  | .error _ after => after

theorem leaves_of_ok {step : Step α} {before after : Timeline} {value : α}
    (run : step.run before = .ok value after) : step.leaves before = after := by
  rw [leaves, run]

theorem leaves_of_error {step : Step α} {before after : Timeline} {failure : Failure LatticeError}
    (run : step.run before = .error failure after) : step.leaves before = after := by
  rw [leaves, run]

/-- The step leaves the slices as they are. -/
def Keeps (step : Step α) : Prop :=
  ∀ before, (step.leaves before).closed = before.closed ∧
    (step.leaves before).current = before.current

theorem keeps_pure (value : α) : Keeps (pure value) := fun _ => ⟨rfl, rfl⟩

theorem keeps_throw (failure : Failure LatticeError) : Keeps (throw failure : Step α) :=
  fun _ => ⟨rfl, rfl⟩

theorem keeps_get : Keeps (get : Step Timeline) := fun _ => ⟨rfl, rfl⟩

theorem Keeps.bind {step : Step α} {rest : α → Step β} (keeps : step.Keeps)
    (restKeeps : ∀ value, (rest value).Keeps) : (step >>= rest).Keeps := by
  intro before
  have first := keeps before
  rw [leaves, EStateM.run_bind]
  cases run : step.run before with
  | ok value between =>
      rw [leaves_of_ok run] at first
      have second := restKeeps value between
      exact ⟨second.1.trans first.1, second.2.trans first.2⟩
  | error failure between =>
      rw [leaves_of_error run] at first
      exact first

theorem keeps_lift (attempt : Result LatticeError α) : (lift attempt).Keeps := by
  cases attempt with
  | ok value => exact keeps_pure value
  | error failure => exact keeps_throw failure

theorem keeps_consume (patch : PatchId) : (consume patch).Keeps := fun _ => ⟨rfl, rfl⟩

theorem keeps_drawMagic : drawMagic.Keeps := by
  rintro ⟨closed, current, magicCells, ancillaCells, consumed⟩
  cases magicCells with
  | nil => exact ⟨rfl, rfl⟩
  | cons cell rest => exact ⟨rfl, rfl⟩

theorem run_lift_eq_ok {attempt : Result LatticeError α} {before after : Timeline} {value : α} :
    (lift attempt).run before = .ok value after ↔ attempt = .ok value ∧ before = after := by
  cases attempt with
  | ok found => simp [lift]
  | error failure =>
      constructor
      · intro run
        cases run
      · intro found
        cases found.1

end Step

theorem keeps_mark (kind : OperationKind) : (mark kind).Keeps := by
  apply Step.keeps_get.bind
  intro timeline
  cases kind with
  | measureSingle patch basis negative =>
      dsimp only
      split
      · exact (Step.keeps_throw _).bind fun _ => Step.keeps_lift _
      · exact Step.keeps_lift _
  | measureJoint patches negative =>
      exact (Step.keeps_lift _).bind fun _ => (Step.keeps_lift _).bind fun _ => Step.keeps_pure _
  | pauli patch operator => exact Step.keeps_lift _
  | prepare patch state =>
      exact (Step.keeps_lift _).bind fun _ => (Step.keeps_lift _).bind fun _ =>
        (Step.keeps_consume _).bind fun _ => Step.keeps_pure _
  | requestMagic patch =>
      apply Step.keeps_drawMagic.bind
      intro cell
      split
      · exact Step.keeps_throw _
      · exact (Step.keeps_consume _).bind fun _ => Step.keeps_pure _

/-! ## Marks -/

open LatticeSurgery.Lattice (Change)

variable {timeline between : Timeline} {marked : Lattice}

theorem change_of_changePatch {lattice : Lattice} {id : PatchId} {change : Patch → Patch}
    (changed : changePatch lattice id change = .ok marked)
    (cells : ∀ patch, (change patch).cells = patch.cells) :
    Change Patch.SameCells lattice marked := by
  rw [changePatch] at changed
  cases located : lattice.indexOf? id with
  | none =>
      rw [located] at changed
      cases changed
  | some index =>
      rw [located] at changed
      cases changed
      exact .modify index change fun patch _ => cells patch

/-- Operations are marked by changes of the current slice. -/
theorem changes_of_mark {kind : OperationKind}
    (run : (mark kind).run timeline = .ok marked between) :
    ReflTransGen (Change Patch.SameCells) timeline.current marked := by
  rcases run_bind_eq_ok.mp run with ⟨_, _, got, run⟩
  cases got
  cases kind with
  | measureSingle patch basis negative =>
      dsimp only at run
      split at run
      · cases run
      · have changed := (Step.run_lift_eq_ok.mp run).1
        exact .single (change_of_changePatch changed fun _ => rfl)
  | measureJoint patches negative =>
      rcases run_bind_eq_ok.mp run with ⟨request, _, _, run⟩
      rcases run_bind_eq_ok.mp run with ⟨⟨merged, region⟩, _, routed, run⟩
      cases run
      have changes := Lattice.changes_of_route (Step.run_lift_eq_ok.mp routed).1
      exact ReflTransGen.mono (fun _ _ => Change.mono Patch.Touched.cells) _ _ changes
  | pauli patch operator =>
      have changed := (Step.run_lift_eq_ok.mp run).1
      exact .single (change_of_changePatch changed fun _ => rfl)
  | prepare patch state =>
      rcases run_bind_eq_ok.mp run with ⟨cell, _, _, run⟩
      rcases run_bind_eq_ok.mp run with ⟨placed, _, added, run⟩
      cases run
      exact .single (.add (Step.run_lift_eq_ok.mp added).1)
  | requestMagic patch =>
      rcases run_bind_eq_ok.mp run with ⟨cell, _, _, run⟩
      split at run
      · cases run
      · cases run
        exact .single (.modify _ _ fun _ _ => rfl)

/-! ## Runs -/

/-- The timeline after an operation has been tried. -/
def attempt (timeline : Timeline) (operation : Operation) : Timeline :=
  (perform operation).leaves timeline

/-- The timeline after operations have been tried one after the other. -/
def attempts (timeline : Timeline) (operations : List Operation) : Timeline :=
  operations.foldl attempt timeline

/-- An operation that fails leaves the slices as they are, and one that succeeds closes the
current slice with its marks on it. -/
theorem attempt_cases (timeline : Timeline) (operation : Operation) :
    (timeline.attempt operation).closed = timeline.closed ∧
        (timeline.attempt operation).current = timeline.current ∨
      ∃ marked, ReflTransGen (Change Patch.SameCells) timeline.current marked ∧
        (timeline.attempt operation).closed = marked :: timeline.closed ∧
        (timeline.attempt operation).current =
          marked.clearAncilla.clearActive (timeline.attempt operation).consumed := by
  have kept := keeps_mark operation.kind timeline
  rw [attempt, Step.leaves, perform, EStateM.run_bind]
  cases marking : (mark operation.kind).run timeline with
  | error failure between =>
      rw [Step.leaves_of_error marking] at kept
      exact .inl kept
  | ok marked between =>
      rw [Step.leaves_of_ok marking] at kept
      right
      refine ⟨marked, changes_of_mark marking, ?_, rfl⟩
      exact congrArg (marked :: ·) kept.1

/-- No two patches of a slice share a cell, and the slice that is open is quiet. -/
structure Settled (timeline : Timeline) : Prop where
  apart : ∀ slice ∈ timeline.slices, slice.Apart
  quiet : ∀ slice, timeline.slices.getLast? = some slice → slice.Quiet

theorem mem_slices {slice : Lattice} :
    slice ∈ timeline.slices ↔ slice ∈ timeline.closed ∨ slice = timeline.current := by
  rw [slices, List.mem_append, List.mem_reverse, List.mem_singleton]

theorem getLast?_slices (timeline : Timeline) :
    timeline.slices.getLast? = some timeline.current := List.getLast?_concat

theorem dropLast_slices (timeline : Timeline) :
    timeline.slices.dropLast = timeline.closed.reverse := List.dropLast_concat

theorem settled_iff : timeline.Settled ↔
    (∀ slice ∈ timeline.closed, slice.Apart) ∧ timeline.current.Apart ∧
      timeline.current.Quiet := by
  constructor
  · intro settled
    have closed : ∀ slice ∈ timeline.closed, slice.Apart := fun slice member =>
      settled.apart slice (mem_slices.mpr (.inl member))
    have current := settled.apart timeline.current (mem_slices.mpr (.inr rfl))
    exact ⟨closed, current, settled.quiet _ timeline.getLast?_slices⟩
  · rintro ⟨closed, apart, quiet⟩
    constructor
    case apart =>
      intro slice member
      cases mem_slices.mp member with
      | inl isClosed => exact closed slice isClosed
      | inr isCurrent => exact isCurrent ▸ apart
    case quiet =>
      intro slice isLast
      cases timeline.getLast?_slices.symm.trans isLast
      exact quiet

theorem Settled.attempt (settled : timeline.Settled) (operation : Operation) :
    (timeline.attempt operation).Settled := by
  rw [settled_iff] at settled ⊢
  cases timeline.attempt_cases operation with
  | inl failed => rwa [failed.1, failed.2]
  | inr performed =>
      rcases performed with ⟨marked, changes, closed, current⟩
      have apart := settled.2.1.changes changes
      rw [closed, current]
      exact ⟨List.forall_mem_cons.mpr ⟨apart, settled.1⟩, apart.clear _, marked.quiet_clear _⟩

theorem Settled.attempts (settled : timeline.Settled) (operations : List Operation) :
    (timeline.attempts operations).Settled := by
  induction operations generalizing timeline with
  | nil => exact settled
  | cons operation rest induction => exact induction (settled.attempt operation)

/-- Closed slices stay as they are. -/
theorem closed_suffix_attempts (timeline : Timeline) (operations : List Operation) :
    timeline.closed <:+ (timeline.attempts operations).closed := by
  induction operations generalizing timeline with
  | nil => exact List.suffix_refl _
  | cons operation rest induction =>
      apply List.IsSuffix.trans _ (induction (timeline.attempt operation))
      cases timeline.attempt_cases operation with
      | inl failed => simp only [failed.1, List.suffix_refl]
      | inr performed =>
          rcases performed with ⟨marked, _, closed, _⟩
          rw [closed]
          exact List.suffix_cons marked timeline.closed

/-- From a first slice that is quiet and keeps its patches apart, any operations in any order,
whether they succeed or fail, lead to slices that are settled. The slices before the last one
are never changed again. -/
theorem settled_attempts {layout : Layout} (apart : layout.lattice.Apart)
    (quiet : layout.lattice.Quiet) (operations : List Operation) :
    ((start layout).attempts operations).Settled ∧ ∀ earlier, earlier <+: operations →
      ((start layout).attempts earlier).slices.dropLast <+:
        ((start layout).attempts operations).slices.dropLast := by
  have settled : (start layout).Settled :=
    settled_iff.mpr ⟨List.forall_mem_nil _, apart, quiet⟩
  apply And.intro (settled.attempts operations)
  intro earlier before
  rcases before with ⟨later, rfl⟩
  rw [dropLast_slices, dropLast_slices, List.reverse_prefix, attempts, attempts, List.foldl_append]
  exact closed_suffix_attempts _ later

/-- An ancilla patch is prepared, a measurement in the wrong basis and a request for a magic
state fail, and then a merge takes place. -/
theorem settled_attempts_preparedThenMerged :
    let layout : Layout :=
      ⟨⟨[(Patch.square ⟨0, 0⟩ .qubit .zero).withId ⟨0⟩,
        (Patch.square ⟨2, 0⟩ .qubit .zero).withId ⟨1⟩], 3, 4⟩, [], [⟨0, 2⟩]⟩
    let earlier : List Operation := [.pending (.prepare ⟨2⟩ .yPlus) none,
      .pending (.measureSingle ⟨2⟩ .Y false) none, .pending (.requestMagic ⟨3⟩) none]
    let operations : List Operation := earlier ++
      [.pending (.measureJoint [(⟨0⟩, .Z), (⟨2⟩, .Z)] false) none,
        .pending (.measureSingle ⟨2⟩ .X false) none]
    ((start layout).attempts earlier).slices.length = 2 ∧
      ((start layout).attempts operations).Settled ∧
      ((start layout).attempts earlier).slices.dropLast <+:
        ((start layout).attempts operations).slices.dropLast := by
  intro layout earlier operations
  have apart : layout.lattice.Apart := by
    simp only [Lattice.Apart, List.Disjoint]
    decide
  have quiet : layout.lattice.Quiet := by
    intro patch member
    rcases List.mem_pair.mp member with rfl | rfl
    · exact ⟨by decide, by decide, by rintro _ _ ⟨⟩⟩
    · exact ⟨by decide, by decide, by rintro _ _ ⟨⟩⟩
  have run := settled_attempts apart quiet operations
  exact ⟨rfl, run.1, run.2 earlier (List.prefix_append _ _)⟩

end Timeline

end LatticeSurgery
