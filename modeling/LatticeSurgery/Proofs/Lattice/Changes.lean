import LatticeSurgery.Proofs.Route.Merging
import Mathlib.Logic.Relation

namespace LatticeSurgery

open Result Relation

/-! # Changes of a lattice

Patches are changed on the cells that they have, and new ones are placed on free cells. Merge
regions are laid by such changes as well, so no change lets two patches share a cell. -/

def Patch.SameCells (before after : Patch) : Prop := after.cells = before.cells

namespace Lattice

variable {lattice next : Lattice}

/-- One patch is changed in a way that is allowed, or one is added. -/
inductive Change (Allowed : Patch → Patch → Prop) (lattice : Lattice) : Lattice → Prop
  | modify (index : Nat) (change : Patch → Patch)
      (allowed : ∀ patch, lattice.patches[index]? = some patch → Allowed patch (change patch)) :
      Change Allowed lattice (lattice.modify index change)
  | add {next : Lattice} {patch : Patch} (added : lattice.add patch = .ok next) :
      Change Allowed lattice next

theorem Change.mono {Allowed Wider : Patch → Patch → Prop}
    (wider : ∀ {before after}, Allowed before after → Wider before after)
    (changed : Change Allowed lattice next) : Change Wider lattice next := by
  cases changed with
  | modify index change allowed =>
      exact .modify index change fun patch found => wider (allowed patch found)
  | add added => exact .add added

theorem map_cells_modify {index : Nat} {change : Patch → Patch}
    (cells : ∀ patch, lattice.patches[index]? = some patch → (change patch).cells = patch.cells) :
    (lattice.modify index change).patches.map Patch.cells = lattice.patches.map Patch.cells := by
  apply List.ext_getElem?
  intro position
  rw [Lattice.modify, List.getElem?_map, List.getElem?_map, List.getElem?_modify]
  by_cases here : index = position
  · subst here
    cases found : lattice.patches[index]? with
    | none => rfl
    | some patch => simp [cells patch found]
  · simp [here]

theorem add_eq_ok_iff {patch : Patch} :
    lattice.add patch = .ok next ↔ (∀ cell ∈ patch.cells, lattice.isFree cell = true) ∧
      next = { lattice with patches := lattice.patches ++ [patch] } := by
  by_cases free : ∀ cell ∈ patch.cells, lattice.isFree cell = true
  · rw [add_eq_ok free, Except.ok.injEq, and_iff_right free, eq_comm]
  · apply iff_of_false _ fun both => free both.1
    rw [add]
    cases taken : patch.cells.find? fun cell => !lattice.isFree cell with
    | some cell => exact refuse_ne_ok _ _
    | none => exact absurd (by simpa using taken) free

theorem apart_iff : lattice.Apart ↔ (lattice.patches.map Patch.cells).Pairwise List.Disjoint :=
  List.pairwise_map.symm

theorem Apart.change (apart : lattice.Apart) (changed : Change Patch.SameCells lattice next) :
    next.Apart := by
  cases changed with
  | modify index change cells =>
      rw [apart_iff] at apart ⊢
      rwa [map_cells_modify cells]
  | @add _ patch added =>
      rcases add_eq_ok_iff.mp added with ⟨free, rfl⟩
      apply List.pairwise_append.mpr
      refine ⟨apart, List.pairwise_singleton _ _, ?_⟩
      intro other member new isNew cell covered coveredNew
      rw [List.mem_singleton.mp isNew] at coveredNew
      have unused := isFree_iff.mp (free cell coveredNew)
      exact unused (List.mem_flatMap.mpr ⟨other, member, covered⟩)

theorem Apart.changes (apart : lattice.Apart)
    (changed : ReflTransGen (Change Patch.SameCells) lattice next) : next.Apart := by
  induction changed with
  | refl => exact apart
  | tail _ change induction => exact induction.change change

end Lattice

/-! ## Laying -/

namespace Route

open LatticeSurgery.Lattice (Change)

/-- Every successful run of the step is a sequence of changes that a merge may make. -/
def Laying.Changes {α : Type} (step : Laying α) : Prop :=
  ∀ before value after, step.run before = .ok value after →
    ReflTransGen (Change Patch.Touched) before after

namespace Laying.Changes

variable {α β : Type}

theorem pure (value : α) : Changes (Pure.pure value) := by
  intro before _ after run
  cases run
  exact .refl

theorem throw (failure : Failure LatticeError) :
    Changes (MonadExcept.throw failure : Laying α) := by
  intro before _ after run
  cases run

theorem get : Changes MonadState.get := by
  intro before _ after run
  cases run
  exact .refl

theorem lift (attempt : Result LatticeError α) : Changes (Laying.lift attempt) := by
  cases attempt with
  | ok value => exact pure value
  | error failure => exact throw failure

theorem bind {step : Laying α} {rest : α → Laying β} (changes : step.Changes)
    (restChanges : ∀ value, (rest value).Changes) : (step >>= rest).Changes := by
  intro before value after run
  rcases run_bind_eq_ok.mp run with ⟨found, between, first, second⟩
  exact (changes before found between first).trans (restChanges found between value after second)

end Laying.Changes

variable {lattice : Lattice}

/-- The patch that covers a cell is replaced. -/
theorem change_of_touched {cell : Cell} {index : Nat} {patch after : Patch}
    (found : lattice.indexAt? cell = some index) (looked : lattice.patchAt? cell = some patch)
    (touched : Patch.Touched patch after) :
    Change Patch.Touched lattice (lattice.modify index fun _ => after) := by
  apply Change.modify
  intro other located
  rcases getElem?_of_indexAt? found with ⟨first, firstLooked, firstLocated⟩
  cases looked.symm.trans firstLooked
  cases located.symm.trans firstLocated
  exact touched

theorem changes_stitch (cell towards : Cell) : (stitch cell towards).Changes := by
  intro before _ after run
  rcases run_stitch_eq_ok run with ⟨index, patch, stitched, changed, found, looked, computed, rfl⟩
  exact .single (change_of_touched found looked (Patch.touched_of_stitchTowards computed))

theorem changes_place (ancillas : List Cell) (cell : Cell) : (place ancillas cell).Changes := by
  intro before _ after run
  cases run_place_eq_ok run with
  | inl covered => rw [covered.2.2]
  | inr placed =>
      have added : before.add (Patch.ancilla cell) = .ok after :=
        Lattice.add_eq_ok_iff.mpr ⟨List.forall_mem_singleton.mpr placed.1, placed.2.2⟩
      exact .single (.add added)

theorem changes_join (cell towards : Cell) : (join cell towards).Changes := by
  intro before _ after run
  by_cases covered : cell ∈ before.cells
  · rcases run_join_eq_ok run covered with
      ⟨index, patch, joined, changed, found, looked, computed, rfl⟩
    exact .single (change_of_touched found looked (Patch.touched_of_joinTowards computed))
  · have free := indexAt?_eq_none_iff.mpr (Lattice.isFree_iff.mpr covered)
    simp only [join, EStateM.run_bind, EStateM.run_get, free] at run
    cases run
    exact .refl

theorem changes_layInterior (ancillas path : List Cell) : (layInterior ancillas path).Changes := by
  fun_induction layInterior ancillas path with
  | case1 ancillas before cell next rest induction =>
      apply (changes_place ancillas cell).bind
      intro placed
      apply (changes_join cell next).bind
      intro _
      exact (changes_join cell before).bind fun _ => induction placed
  | case2 => exact .pure _

theorem changes_layPath (region : Region) (path : List Cell) : (layPath region path).Changes := by
  apply Laying.Changes.get.bind
  intro lattice
  dsimp only
  split
  · apply (changes_stitch _ _).bind
    intro _
    apply (changes_stitch _ _).bind
    intro _
    exact (changes_layInterior _ _).bind fun _ => .pure _
  · exact .throw _

theorem changes_layPaths (paths : List (List Cell)) (region : Region) :
    (paths.foldlM layPath region : Laying Region).Changes := by
  induction paths generalizing region with
  | nil => exact .pure region
  | cons path rest induction =>
      rw [List.foldlM_cons]
      exact (changes_layPath region path).bind induction

theorem changes_lay (request : Request) : (lay request).Changes := by
  apply Laying.Changes.get.bind
  intro lattice
  apply (Laying.Changes.lift _).bind
  intro _
  exact (Laying.Changes.lift _).bind fun paths => changes_layPaths paths ⟨[], []⟩

end Route

/-- A merge region is laid by changes, also over the ancilla patches of the paths before. -/
theorem Lattice.changes_of_route {lattice merged : Lattice} {request : Request} {region : Region}
    (routed : lattice.route request = .ok (merged, region)) :
    ReflTransGen (Lattice.Change Patch.Touched) lattice merged := by
  rw [Lattice.route] at routed
  cases run : (Route.lay request).run lattice with
  | error failure between =>
      rw [run] at routed
      cases routed
  | ok found after =>
      rw [run] at routed
      cases routed
      exact Route.changes_lay request lattice region merged run

end LatticeSurgery
