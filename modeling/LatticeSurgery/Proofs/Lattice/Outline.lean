import LatticeSurgery.Proofs.Route.Hub
import LatticeSurgery.Timeline

namespace LatticeSurgery

open Result

/-! # From one slice to the next

The outline of a patch is all that is known of it apart from its state. When a slice is
closed, merges are undone, a measured patch may vanish, and the other outlines stay. -/

namespace Patch

def outline (patch : Patch) : Patch := { patch with state := none }

/-- The patch holds a state and nothing happens to it. -/
def Idle (patch : Patch) : Prop := ∃ state, patch.state = some (.idle state)

@[simp] theorem outline_withState (patch : Patch) (state : PatchState) :
    (patch.withState state).outline = patch.outline := rfl

@[simp] theorem outline_withId (patch : Patch) (id : PatchId) :
    (patch.withId id).outline = patch.outline.withId id := rfl

theorem tidy_outline {patch : Patch} : patch.outline.Tidy ↔ patch.Tidy :=
  ⟨fun tidy => ⟨tidy.role_ne, tidy.plain, tidy.cell⟩,
    fun tidy => ⟨tidy.role_ne, tidy.plain, tidy.cell⟩⟩

theorem Tidy.withId {patch : Patch} (tidy : patch.Tidy) (id : PatchId) : (patch.withId id).Tidy :=
  ⟨tidy.role_ne, tidy.plain, tidy.cell⟩

theorem tidy_bordered {cell : Cell} {role : PatchRole} (role_ne : role ≠ .ancilla)
    (state : SymbolicState) {vertical horizontal : Border} (plain : vertical.isStitched = false)
    (plainBeside : horizontal.isStitched = false) :
    (bordered cell role state vertical horizontal).Tidy where
  role_ne := role_ne
  plain := by simp [bordered, plain, plainBeside]
  cell := ⟨cell, rfl, by simp [bordered]⟩

theorem release_eq_self {patch : Patch}
    (plain : ∀ edge ∈ patch.edges, edge.border.isStitched = false) : patch.release = patch := by
  have none : patch.hasStitched = false := by
    simpa [hasStitched] using plain
  rw [release, none, if_neg Bool.false_ne_true]

theorem outline_release {patch : Patch} : patch.release.outline = patch.unstitched.outline := by
  rw [release]
  split
  · rfl
  · next none =>
      have plain : ∀ edge ∈ patch.edges, edge.border.isStitched = false := by
        simpa [hasStitched] using none
      rw [unstitched_eq_self plain]

theorem Idle.release {patch : Patch} (idle : patch.Idle) : patch.release.Idle := by
  rw [Patch.release]
  split
  · exact ⟨_, rfl⟩
  · exact idle

end Patch

namespace Lattice

def outline (lattice : Lattice) : Lattice :=
  { lattice with patches := lattice.patches.map Patch.outline }

variable {lattice : Lattice}

@[simp] theorem cells_outline : lattice.outline.cells = lattice.cells := by
  rw [cells, cells, outline, List.flatMap_map]
  rfl

@[simp] theorem grid_outline : lattice.outline.grid = lattice.grid := by
  rw [grid, grid, cells_outline]
  rfl

theorem patchAt?_outline (cell : Cell) :
    lattice.outline.patchAt? cell = (lattice.patchAt? cell).map Patch.outline := by
  rw [patchAt?, outline, List.find?_map]
  rfl

theorem patchOf?_outline (id : PatchId) :
    lattice.outline.patchOf? id = (lattice.patchOf? id).map Patch.outline := by
  rw [patchOf?, outline, List.find?_map]
  rfl

@[simp] theorem isFree_outline (cell : Cell) :
    lattice.outline.isFree cell = lattice.isFree cell := by
  rw [isFree, patchAt?_outline, Option.isNone_map]
  rfl

theorem cellOf?_outline (id : PatchId) : lattice.outline.cellOf? id = lattice.cellOf? id := by
  rw [cellOf?, cellOf?, patchOf?_outline]
  cases lattice.patchOf? id <;> rfl

theorem open_outline {cell : Cell} : lattice.outline.Open cell ↔ lattice.Open cell := by
  rw [Open, Open, grid_outline, isFree_outline]

theorem Exit.of_outline {cell exit : Cell} {basis : Pauli}
    (exits : lattice.outline.Exit cell basis exit) : lattice.Exit cell basis exit := by
  rcases exits with ⟨_, found, edge, member, exposed, across, isOpen⟩
  rw [patchAt?_outline, Option.map_eq_some_iff] at found
  rcases found with ⟨patch, found, rfl⟩
  exact ⟨patch, found, edge, member, exposed, across, open_outline.mp isOpen⟩

theorem Tidy.of_outline (tidy : lattice.outline.Tidy) : lattice.Tidy where
  cell := fun cell member => tidy.cell cell (cells_outline.symm ▸ member)
  leastRows := tidy.leastRows
  leastCols := tidy.leastCols
  patch := fun _ member => Patch.tidy_outline.mp (tidy.patch _ (List.mem_map_of_mem member))

end Lattice

theorem Route.Accessible.of_outline {lattice : Lattice} {hub : Cell} {entry : Cell × Pauli}
    (accessible : Accessible lattice.outline hub entry) : Accessible lattice hub entry := by
  rcases accessible with ⟨exit, exits, connected⟩
  refine ⟨exit, exits.of_outline, connected.lift id ?_⟩
  rintro cell next ⟨isOpen, nextOpen, side⟩
  exact ⟨Lattice.open_outline.mp isOpen, Lattice.open_outline.mp nextOpen, side⟩

/-! ## Closing a slice -/

/-- A merge leaves the outlines of all patches as they were. -/
theorem Route.Laid.clearAncilla {original lattice : Lattice} (laid : Laid original lattice)
    (tidy : original.Tidy) (idle : ∀ patch ∈ original.patches, patch.Idle) :
    lattice.clearAncilla.outline = original.outline ∧
      ∀ patch ∈ lattice.clearAncilla.patches, patch.Idle := by
  rcases laid.patches with ⟨touched, ancillas, split, changes, areAncillas⟩
  have same := Patch.Touched.map_unstitched changes fun patch member =>
    (tidy.patch patch member).role_ne
  have plain : original.patches.map Patch.unstitched = original.patches := by
    rw [List.map_congr_left, List.map_id]
    intro patch member
    exact Patch.unstitched_eq_self (tidy.patch patch member).plain
  rw [plain] at same
  have before : ∀ patch ∈ touched, patch.unstitched ∈ original.patches := fun patch member =>
    same ▸ List.mem_map_of_mem member
  have kept : touched.filter (fun patch => decide (patch.role ≠ .ancilla)) = touched := by
    refine List.filter_eq_self.mpr fun patch member => decide_eq_true ?_
    exact (tidy.patch _ (before patch member)).role_ne
  have dropped : ancillas.filter (fun patch => decide (patch.role ≠ .ancilla)) = [] := by
    refine List.filter_eq_nil_iff.mpr fun patch member => ?_
    simp [(areAncillas patch member).1]
  have cleared : lattice.clearAncilla =
      ⟨touched.map Patch.release, original.leastRows, original.leastCols⟩ := by
    rw [Lattice.clearAncilla, split, List.filter_append, kept, dropped, List.append_nil,
      laid.leastRows, laid.leastCols]
  rw [cleared]
  constructor
  · rw [Lattice.outline, Lattice.outline, ← same, List.map_map, List.map_map]
    exact congrArg (Lattice.mk · _ _) (List.map_congr_left fun patch _ => Patch.outline_release)
  · intro patch member
    rcases List.mem_map.mp member with ⟨other, otherMember, rfl⟩
    have otherIdle : other.Idle := idle other.unstitched (before other otherMember)
    exact otherIdle.release

namespace Lattice

variable {lattice : Lattice}

theorem Tidy.clearAncilla_eq (tidy : lattice.Tidy) : lattice.clearAncilla = lattice := by
  have kept : lattice.patches.filter (fun patch => decide (patch.role ≠ .ancilla)) =
      lattice.patches :=
    List.filter_eq_self.mpr fun patch member => decide_eq_true (tidy.patch patch member).role_ne
  have released : lattice.patches.map Patch.release = lattice.patches := by
    rw [List.map_congr_left, List.map_id]
    exact fun patch member => Patch.release_eq_self (tidy.patch patch member).plain
  rw [clearAncilla, kept, released]

private theorem clear_idle (consumed : List PatchId) {patches : List Patch}
    (idle : ∀ patch ∈ patches, patch.Idle) :
    (patches.filter fun patch => !isSpent consumed patch).map Patch.settle = patches := by
  have kept : patches.filter (fun patch => !isSpent consumed patch) = patches := by
    refine List.filter_eq_self.mpr fun patch member => ?_
    rcases idle patch member with ⟨state, held⟩
    simp [isSpent, Patch.isMeasured, Patch.heldState, held, PatchState.isMeasured]
  have settled : patches.map Patch.settle = patches := by
    rw [List.map_congr_left, List.map_id]
    intro patch member
    rcases idle patch member with ⟨state, held⟩
    simp [Patch.settle, held]
  rw [kept, settled]

/-- A slice on which nothing happens stays as it is. -/
theorem clearActive_eq_self (consumed : List PatchId)
    (idle : ∀ patch ∈ lattice.patches, patch.Idle) : lattice.clearActive consumed = lattice := by
  rw [clearActive, clear_idle consumed idle]

/-- One active patch among idle ones vanishes or settles. -/
theorem clearActive_eq (consumed : List PatchId) {before after : List Patch} {patch : Patch}
    (split : lattice.patches = before ++ patch :: after)
    (idle : ∀ other ∈ before ++ after, other.Idle) :
    lattice.clearActive consumed = { lattice with
      patches := before ++ (if isSpent consumed patch then [] else [patch.settle]) ++ after } := by
  rw [List.forall_mem_append] at idle
  rw [clearActive, split, List.filter_append, List.map_append, clear_idle consumed idle.1,
    List.filter_cons]
  cases isSpent consumed patch with
  | true => simp [clear_idle consumed idle.2]
  | false => simp [clear_idle consumed idle.2]

end Lattice

end LatticeSurgery
