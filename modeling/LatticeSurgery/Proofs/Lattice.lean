import LatticeSurgery.Proofs.Result
import LatticeSurgery.Route
import Mathlib.Data.List.Nodup

namespace LatticeSurgery

open Result

/-! # Lattices within their words

When the cells of all patches leave room for one more column and row, no question
about the grid ends in a fault. -/

theorem Word.check32_eq_ok {value found : Int} :
    check32 value = .ok found ↔ Fits32 value ∧ value = found := by
  rw [check32]
  split <;> simp_all

theorem Word.check32_of_fits {value : Int} (fits : Fits32 value) : check32 value = .ok value :=
  check32_eq_ok.mpr ⟨fits, rfl⟩

namespace Side

def opposite : Side → Side
  | top => bottom
  | bottom => top
  | left => right
  | right => left

theorem mem_all (side : Side) : side ∈ all := by
  cases side <;> simp [all]

theorem offset_injective : Function.Injective offset := by
  intro side other same
  cases side <;> cases other <;> simp_all [offset]

end Side

namespace Cell

def shift (cell : Cell) (side : Side) : Cell :=
  ⟨cell.col + side.offset.1, cell.row + side.offset.2⟩

theorem shift_opposite (cell : Cell) (side : Side) :
    (cell.shift side).shift side.opposite = cell := by
  rcases cell with ⟨col, row⟩
  cases side <;> simp only [shift, Side.opposite, Side.offset, mk.injEq] <;> omega

theorem shift_injective (cell : Cell) : Function.Injective cell.shift := by
  intro side other same
  apply Side.offset_injective
  rw [shift, shift, mk.injEq] at same
  apply Prod.ext <;> omega

theorem shift_ne (cell : Cell) (side : Side) : cell.shift side ≠ cell := by
  rcases cell with ⟨col, row⟩
  cases side <;> simp only [shift, Side.offset, ne_eq, mk.injEq] <;> omega

/-- A cell with words for the coordinates of the cells on all its sides. -/
def Within (cell : Cell) : Prop :=
  Word.Fits32 (cell.col - 1) ∧ Word.Fits32 (cell.col + 1) ∧
    Word.Fits32 (cell.row - 1) ∧ Word.Fits32 (cell.row + 1)

theorem neighbour_eq_ok {cell next : Cell} {side : Side} (found : cell.neighbour side = .ok next) :
    next = cell.shift side := by
  rw [Cell.neighbour, bind_eq_ok] at found
  rcases found with ⟨col, colFits, found⟩
  rcases bind_eq_ok.mp found with ⟨row, rowFits, made⟩
  rw [pure_eq_ok, Except.ok.injEq] at made
  rw [← made, ← (Word.check32_eq_ok.mp colFits).2, ← (Word.check32_eq_ok.mp rowFits).2]
  rfl

theorem Within.neighbour {cell : Cell} (within : cell.Within) (side : Side) :
    cell.neighbour side = .ok (cell.shift side) := by
  have fitsCol : Word.Fits32 (cell.col + side.offset.1) := by
    cases side <;> simp only [Within, Word.Fits32, Word.limit32, Side.offset] at * <;> omega
  have fitsRow : Word.Fits32 (cell.row + side.offset.2) := by
    cases side <;> simp only [Within, Word.Fits32, Word.limit32, Side.offset] at * <;> omega
  rw [Cell.neighbour, Word.check32_of_fits fitsCol, Word.check32_of_fits fitsRow]
  rfl

/-- The side towards a neighbour. -/
theorem sideTowards_eq_ok {cell : Cell} {side : Side} {found : Option Side}
    (computed : cell.sideTowards (cell.shift side) = .ok found) : found = some side := by
  rw [Cell.sideTowards, bind_eq_ok] at computed
  rcases computed with ⟨cols, colFits, computed⟩
  rcases bind_eq_ok.mp computed with ⟨rows, rowFits, made⟩
  have colsEq : side.offset.1 = cols := by
    rw [← (Word.check32_eq_ok.mp colFits).2]
    simp only [shift]
    omega
  have rowsEq : side.offset.2 = rows := by
    rw [← (Word.check32_eq_ok.mp rowFits).2]
    simp only [shift]
    omega
  rw [pure_eq_ok, Except.ok.injEq, ← colsEq, ← rowsEq] at made
  rw [← made]
  cases side <;> rfl

/-- A cell of the positive quadrant with room around it. -/
def Roomy (cell : Cell) : Prop :=
  0 ≤ cell.col ∧ Word.Fits32 (cell.col + 1) ∧ 0 ≤ cell.row ∧ Word.Fits32 (cell.row + 1)

theorem Roomy.within {cell : Cell} (roomy : cell.Roomy) : cell.Within := by
  simp only [Roomy, Within, Word.Fits32, Word.limit32] at *
  omega

theorem Roomy.sideTowards {cell other : Cell} (roomy : cell.Roomy) (otherRoomy : other.Roomy) :
    ∃ side, cell.sideTowards other = .ok side := by
  have fitsCol : Word.Fits32 (other.col - cell.col) := by
    simp only [Roomy, Word.Fits32, Word.limit32] at *
    omega
  have fitsRow : Word.Fits32 (other.row - cell.row) := by
    simp only [Roomy, Word.Fits32, Word.limit32] at *
    omega
  rw [Cell.sideTowards, Word.check32_of_fits fitsCol, Word.check32_of_fits fitsRow]
  exact ⟨_, rfl⟩

end Cell

namespace Lattice

/-- There are words for the dimensions of the lattice. -/
structure Sized (lattice : Lattice) : Prop where
  cell : ∀ cell ∈ lattice.cells, Word.Fits32 (cell.col + 1) ∧ Word.Fits32 (cell.row + 1)
  leastRows : Word.Fits32 lattice.leastRows
  leastCols : Word.Fits32 lattice.leastCols

/-- There are words for the cells across all borders as well. -/
structure Within (lattice : Lattice) : Prop extends lattice.Sized where
  edge : ∀ patch ∈ lattice.patches, ∀ edge ∈ patch.edges, edge.cell.Within

/-- Every cell of a patch has room around it, and the least dimensions are words. -/
structure Roomy (lattice : Lattice) : Prop where
  cell : ∀ cell ∈ lattice.cells, cell.Roomy
  leastRows : 0 < lattice.leastRows ∧ Word.Fits32 lattice.leastRows
  leastCols : Word.Fits32 lattice.leastCols

theorem Roomy.sized {lattice : Lattice} (roomy : lattice.Roomy) : lattice.Sized where
  cell cell member := ⟨(roomy.cell cell member).2.1, (roomy.cell cell member).2.2.2⟩
  leastRows := roomy.leastRows.2
  leastCols := roomy.leastCols

/-- The largest of a number and the successors of coordinates. -/
def reach (least : Int) (coordinates : List Int) : Int :=
  (coordinates.map (· + 1)).foldl max least

theorem le_reach (least : Int) (coordinates : List Int) : least ≤ reach least coordinates := by
  induction coordinates generalizing least with
  | nil => exact Int.le_refl _
  | cons coordinate rest induction =>
      exact Int.le_trans (Int.le_max_left _ _) (induction (max least (coordinate + 1)))

theorem lt_reach {least : Int} {coordinates : List Int} {coordinate : Int}
    (member : coordinate ∈ coordinates) : coordinate < reach least coordinates := by
  induction coordinates generalizing least with
  | nil => cases member
  | cons head rest induction =>
      rcases List.mem_cons.mp member with rfl | member
      · have first := le_reach (max least (coordinate + 1)) rest
        have larger := Int.le_max_right least (coordinate + 1)
        rw [reach] at *
        rw [List.map_cons, List.foldl_cons]
        omega
      · exact induction member

theorem reach_le {least bound : Int} {coordinates : List Int} (leastBounded : least ≤ bound)
    (bounded : ∀ coordinate ∈ coordinates, coordinate < bound) :
    reach least coordinates ≤ bound := by
  induction coordinates generalizing least with
  | nil => exact leastBounded
  | cons head rest induction =>
      have headBounded := Int.add_one_le_of_lt (bounded head List.mem_cons_self)
      exact induction (Int.max_le.mpr ⟨leastBounded, headBounded⟩) fun coordinate member =>
        bounded coordinate (List.mem_cons_of_mem _ member)

theorem fits_reach {least : Int} {coordinates : List Int} (leastFits : Word.Fits32 least)
    (fits : ∀ coordinate ∈ coordinates, Word.Fits32 (coordinate + 1)) :
    Word.Fits32 (reach least coordinates) := by
  induction coordinates generalizing least with
  | nil => exact leastFits
  | cons head rest induction =>
      apply induction
      · have headFits := fits head List.mem_cons_self
        simp only [Word.Fits32] at *
        omega
      · intro coordinate member
        exact fits coordinate (List.mem_cons_of_mem _ member)

theorem extent_eq_ok {least value : Int} {coordinates : List Int}
    (computed : extent least coordinates = .ok value) : value = reach least coordinates := by
  rw [extent, bind_eq_ok] at computed
  rcases computed with ⟨ends, mapped, made⟩
  have same : ends = coordinates.map (· + 1) := by
    have related := mapM_eq_ok.mp mapped
    rw [← List.forall₂_eq_eq_eq, List.forall₂_map_right_iff]
    apply related.flip.imp
    intro found coordinate fits
    exact (Word.check32_eq_ok.mp fits).2.symm
  rw [pure_eq_ok, Except.ok.injEq, same] at made
  exact made.symm

theorem extent_eq_reach {least : Int} {coordinates : List Int}
    (fits : ∀ coordinate ∈ coordinates, Word.Fits32 (coordinate + 1)) :
    extent least coordinates = .ok (reach least coordinates) := by
  have ends : (coordinates.mapM fun coordinate => Word.check32 (coordinate + 1)) =
      .ok (coordinates.map (· + 1)) :=
    mapM_eq_map fun coordinate member => Word.check32_of_fits (fits coordinate member)
  rw [extent, ends]
  rfl

/-- The grid of a lattice. -/
def grid (lattice : Lattice) : Route.Grid :=
  ⟨reach lattice.leastRows (lattice.cells.map Cell.row),
    reach lattice.leastCols (lattice.cells.map Cell.col)⟩

theorem contains_grid {lattice : Lattice} {cell : Cell} :
    lattice.grid.contains cell = true ↔
      (0 ≤ cell.col ∧ cell.col < lattice.grid.cols) ∧
        0 ≤ cell.row ∧ cell.row < lattice.grid.rows := by
  simp [Route.Grid.contains, and_assoc]

theorem add_eq_ok {lattice : Lattice} {patch : Patch}
    (free : ∀ cell ∈ patch.cells, lattice.isFree cell = true) :
    lattice.add patch = .ok { lattice with patches := lattice.patches ++ [patch] } := by
  have unoccupied : patch.cells.find? (fun cell => !lattice.isFree cell) = none := by
    simpa using free
  rw [add, unoccupied]

theorem inBounds_eq_ok {lattice : Lattice} {cell : Cell} {inside : Bool}
    (computed : lattice.inBounds cell = .ok inside) : inside = lattice.grid.contains cell := by
  rw [inBounds, bind_eq_ok] at computed
  rcases computed with ⟨cols, counted, computed⟩
  have sameCols : cols = lattice.grid.cols := extent_eq_ok counted
  subst sameCols
  split at computed
  · next inCols =>
      rcases bind_eq_ok.mp computed with ⟨rows, counted, made⟩
      have sameRows : rows = lattice.grid.rows := extent_eq_ok counted
      subst sameRows
      rw [pure_eq_ok, Except.ok.injEq] at made
      rw [← made, Bool.eq_iff_iff, decide_eq_true_iff, contains_grid]
      exact (and_iff_right inCols).symm
  · next outCols =>
      rw [pure_eq_ok, Except.ok.injEq] at computed
      rw [← computed, eq_comm, ← Bool.not_eq_true, contains_grid]
      exact fun inside => outCols inside.1

/-- The grid of a search has the cells of the lattice's grid. -/
theorem contains_of_ofLattice {lattice : Lattice} {grid : Route.Grid}
    (computed : Route.Grid.ofLattice lattice = .ok grid) (cell : Cell) :
    grid.contains cell = lattice.grid.contains cell := by
  rw [Route.Grid.ofLattice, bind_eq_ok] at computed
  rcases computed with ⟨rows, counted, computed⟩
  have sameRows : rows = lattice.grid.rows := extent_eq_ok counted
  subst sameRows
  split at computed
  · rcases bind_eq_ok.mp computed with ⟨cols, counted, made⟩
    have sameCols : cols = lattice.grid.cols := extent_eq_ok counted
    rw [pure_eq_ok, Except.ok.injEq, sameCols] at made
    rw [← made]
  · next noRows =>
      rw [pure_eq_ok, Except.ok.injEq] at computed
      rw [← computed, Bool.eq_iff_iff, contains_grid]
      simp only [Route.Grid.contains, Bool.and_eq_true, decide_eq_true_iff]
      omega

theorem size_of_ofLattice {lattice : Lattice} {grid : Route.Grid}
    (computed : Route.Grid.ofLattice lattice = .ok grid) : grid.size = lattice.grid.size := by
  rw [Route.Grid.ofLattice, bind_eq_ok] at computed
  rcases computed with ⟨rows, counted, computed⟩
  have sameRows : rows = lattice.grid.rows := extent_eq_ok counted
  subst sameRows
  split at computed
  · rcases bind_eq_ok.mp computed with ⟨cols, counted, made⟩
    have sameCols : cols = lattice.grid.cols := extent_eq_ok counted
    rw [pure_eq_ok, Except.ok.injEq, sameCols] at made
    rw [← made]
  · next noRows =>
      rw [pure_eq_ok, Except.ok.injEq] at computed
      have none : lattice.grid.rows.toNat = 0 := by omega
      rw [← computed, Route.Grid.size, Route.Grid.size, none, Nat.zero_mul]
      rfl

namespace Sized

variable {lattice : Lattice} (sized : lattice.Sized)
include sized

theorem rows_eq : lattice.rows = .ok lattice.grid.rows := by
  apply extent_eq_reach
  intro coordinate member
  rcases List.mem_map.mp member with ⟨cell, cellMember, rfl⟩
  exact (sized.cell cell cellMember).2

theorem cols_eq : lattice.cols = .ok lattice.grid.cols := by
  apply extent_eq_reach
  intro coordinate member
  rcases List.mem_map.mp member with ⟨cell, cellMember, rfl⟩
  exact (sized.cell cell cellMember).1

theorem exists_ofLattice : ∃ grid, Route.Grid.ofLattice lattice = .ok grid := by
  rw [Route.Grid.ofLattice, sized.rows_eq, sized.cols_eq, ok_bind]
  split
  · exact ⟨_, rfl⟩
  · exact ⟨_, rfl⟩

theorem exists_inBounds (cell : Cell) : ∃ inside, lattice.inBounds cell = .ok inside := by
  rw [inBounds, sized.cols_eq, sized.rows_eq, ok_bind]
  split
  · exact ⟨_, rfl⟩
  · exact ⟨_, rfl⟩

theorem roomy_of_contains {cell : Cell} (inside : lattice.grid.contains cell = true) :
    cell.Roomy := by
  have colsFits : Word.Fits32 lattice.grid.cols := by
    apply fits_reach sized.leastCols
    intro coordinate member
    rcases List.mem_map.mp member with ⟨other, otherMember, rfl⟩
    exact (sized.cell other otherMember).1
  have rowsFits : Word.Fits32 lattice.grid.rows := by
    apply fits_reach sized.leastRows
    intro coordinate member
    rcases List.mem_map.mp member with ⟨other, otherMember, rfl⟩
    exact (sized.cell other otherMember).2
  rcases contains_grid.mp inside with ⟨⟨colLow, colHigh⟩, rowLow, rowHigh⟩
  simp only [Cell.Roomy, Word.Fits32, Word.limit32] at *
  omega

end Sized

theorem Roomy.contains_of_mem {lattice : Lattice} (roomy : lattice.Roomy) {cell : Cell}
    (member : cell ∈ lattice.cells) : lattice.grid.contains cell = true := by
  have room := roomy.cell cell member
  exact contains_grid.mpr ⟨⟨room.1, lt_reach (List.mem_map_of_mem member)⟩, room.2.2.1,
    lt_reach (List.mem_map_of_mem member)⟩

end Lattice

namespace Route.Grid

/-- All cells of a grid. -/
def cells (grid : Grid) : List Cell :=
  (List.range grid.rows.toNat).flatMap fun (row : Nat) =>
    (List.range grid.cols.toNat).map fun (col : Nat) => ⟨col, row⟩

theorem length_cells (grid : Grid) : grid.cells.length = grid.size := by
  simp [cells, size, List.length_flatMap]

theorem mem_cells {grid : Grid} {cell : Cell} : cell ∈ grid.cells ↔ grid.contains cell = true := by
  simp only [cells, List.mem_flatMap, List.mem_range, List.mem_map, contains, Bool.and_eq_true,
    decide_eq_true_iff]
  constructor
  · rintro ⟨row, rowInside, col, colInside, rfl⟩
    refine ⟨⟨⟨?_, ?_⟩, ?_⟩, ?_⟩ <;> simp only <;> omega
  · rintro ⟨⟨⟨colLow, colHigh⟩, rowLow⟩, rowHigh⟩
    refine ⟨cell.row.toNat, by omega, cell.col.toNat, by omega, ?_⟩
    rw [Int.toNat_of_nonneg colLow, Int.toNat_of_nonneg rowLow]

theorem nodup_cells (grid : Grid) : grid.cells.Nodup := by
  refine List.nodup_flatMap.mpr ⟨fun row _ => ?_, List.nodup_range.imp fun differ => ?_⟩
  · refine List.nodup_range.map fun col other same => ?_
    simp only [Cell.mk.injEq] at same
    omega
  · intro cell first second
    rcases List.mem_map.mp first with ⟨_, _, rfl⟩
    rcases List.mem_map.mp second with ⟨_, _, same⟩
    simp only [Cell.mk.injEq] at same
    omega

end Route.Grid

end LatticeSurgery
