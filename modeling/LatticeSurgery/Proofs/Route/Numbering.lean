import LatticeSurgery.Proofs.Route.Links
import Mathlib.Data.Set.Card

namespace LatticeSurgery

open Result

/-! # Numbers for a search

The cells and the links of a search are numbered. When there are more of them than numbers, the
search ends in a fault, and otherwise the limits do not show. -/

namespace Route

variable {lattice : Lattice} {request : Request}

/-- The links of a search from one cell to another. -/
def links (lattice : Lattice) (request : Request) : Set (Cell × Cell) :=
  { link | Linked lattice request link.1 link.2 ∧ link.2 ≠ link.1 }

/-- There are numbers for all cells and links of the search for a request. -/
structure Numbered (lattice : Lattice) (request : Request) : Prop where
  cells : lattice.grid.size ≤ Storage.indices
  links : (links lattice request).ncard ≤ Storage.indices

/-! ## Counting links -/

/-- All links of a search, listed by the cells that they come from. -/
def linkList (lattice : Lattice) (grid : Grid) (entries : List (Cell × Cell)) :
    List (Cell × Cell) :=
  grid.cells.flatMap fun cell => (linksFrom lattice grid entries cell).map fun next => (cell, next)

private theorem fold_length {α : Type} (listed : Nat → List α) (count start : Nat) :
    count.fold (fun index _ total => total + (listed index).length) start =
      start + ((List.range count).flatMap listed).length := by
  induction count with
  | zero => rfl
  | succ count induction =>
      rw [Nat.fold_succ, induction, List.range_succ, List.flatMap_append, List.length_append,
        List.flatMap_singleton, Nat.add_assoc]

/-- The links from the cells of one row. -/
private def rowLinks (lattice : Lattice) (grid : Grid) (entries : List (Cell × Cell)) (row : Nat) :
    List (Cell × Cell) :=
  (List.range grid.cols.toNat).flatMap fun (col : Nat) =>
    (linksFrom lattice grid entries ⟨col, row⟩).map fun next => (⟨col, row⟩, next)

theorem length_linkList (lattice : Lattice) (grid : Grid) (entries : List (Cell × Cell)) :
    (linkList lattice grid entries).length = linkCount lattice grid entries := by
  have rows : linkList lattice grid entries =
      (List.range grid.rows.toNat).flatMap (rowLinks lattice grid entries) := by
    rw [linkList, Grid.cells, List.flatMap_assoc]
    simp only [List.flatMap_map]
    rfl
  have inRow (row start : Nat) : grid.cols.toNat.fold (fun col _ total =>
      total + (linksFrom lattice grid entries ⟨col, row⟩).length) start =
        start + (rowLinks lattice grid entries row).length := by
    rw [rowLinks, ← fold_length]
    simp only [List.length_map]
  rw [rows, linkCount]
  simp only [inRow, fold_length, Nat.zero_add]

section Counted

variable {grid : Grid} (gridded : Grid.ofLattice lattice = .ok grid)
  {entries : List (Cell × Cell)} (computed : patchLinks lattice request = .ok entries)

include gridded computed

theorem mem_linkList {link : Cell × Cell} :
    link ∈ linkList lattice grid entries ↔ link ∈ links lattice request := by
  simp only [linkList, List.mem_flatMap, List.mem_map]
  constructor
  · rintro ⟨cell, _, next, linked, rfl⟩
    exact (mem_linksFrom gridded computed).mp linked
  · intro linked
    refine ⟨link.1, ?_, link.2, (mem_linksFrom gridded computed).mpr linked, rfl⟩
    rw [Grid.mem_cells, Lattice.contains_of_ofLattice gridded]
    exact linked.1.contains.1

omit gridded computed in
theorem nodup_linkList (lattice : Lattice) (grid : Grid) (entries : List (Cell × Cell)) :
    (linkList lattice grid entries).Nodup := by
  refine List.nodup_flatMap.mpr ⟨fun cell _ => ?_, grid.nodup_cells.imp fun differ => ?_⟩
  · exact (nodup_linksFrom lattice grid entries cell).map fun _ _ same => (Prod.mk.inj same).2
  · intro link first second
    rcases List.mem_map.mp first with ⟨_, _, rfl⟩
    rcases List.mem_map.mp second with ⟨_, _, same⟩
    exact differ (Prod.mk.inj same).1.symm

/-- The limit is on the number of links of the request. -/
theorem linkCount_eq_ncard : linkCount lattice grid entries = (links lattice request).ncard := by
  have listed : links lattice request = (linkList lattice grid entries).toFinset := by
    ext link
    rw [List.coe_toFinset, Set.mem_ofPred_eq, mem_linkList gridded computed]
  rw [listed, Set.ncard_coe_finset, List.toFinset_card_of_nodup (nodup_linkList ..),
    length_linkList]

end Counted

/-! ## Searches with and without numbers -/

section Limits

variable {source : Cell × Pauli} {targets : Request}

theorem findPaths_of_numbered {grid : Grid} (gridded : Grid.ofLattice lattice = .ok grid)
    {entries : List (Cell × Cell)}
    (computed : patchLinks lattice (source :: targets) = .ok entries)
    (numbered : Numbered lattice (source :: targets)) :
    findPaths lattice (source :: targets) = targets.mapM fun target => findPath source.1
      (Search.trails (linksFrom lattice grid entries) grid.size source.1) target.1 := by
  have few : Storage.number grid.size = .ok () :=
    Storage.number_eq_ok.mpr (Lattice.size_of_ofLattice gridded ▸ numbered.cells)
  have fewLinks : Storage.number (linkCount lattice grid entries) = .ok () :=
    Storage.number_eq_ok.mpr (linkCount_eq_ncard gridded computed ▸ numbered.links)
  rw [findPaths_eq gridded computed, few, fewLinks]
  rfl

/-- A search without enough numbers ends in a fault. -/
theorem findPaths_of_not_numbered (within : lattice.Within)
    (crowded : ¬ Numbered lattice (source :: targets)) :
    findPaths lattice (source :: targets) = .error (.fault .indexing) := by
  rcases within.toSized.exists_ofLattice with ⟨grid, gridded⟩
  rcases exists_patchLinks within (source :: targets) with ⟨entries, computed⟩
  rw [findPaths_eq gridded computed]
  by_cases few : grid.size ≤ Storage.indices
  · have many : ¬ linkCount lattice grid entries ≤ Storage.indices := fun fewLinks =>
      crowded ⟨Lattice.size_of_ofLattice gridded ▸ few,
        linkCount_eq_ncard gridded computed ▸ fewLinks⟩
    rw [Storage.number_eq_ok.mpr few, Storage.number_eq_error many]
    rfl
  · rw [Storage.number_eq_error few]
    rfl

end Limits

/-! ## Bounds -/

/-- Links lead from cells of the grid to cells of the grid. -/
private theorem links_subset (lattice : Lattice) (request : Request) :
    links lattice request ⊆
      (lattice.grid.cells.toFinset ×ˢ lattice.grid.cells.toFinset : Finset (Cell × Cell)) := by
  intro link linked
  simpa [Grid.mem_cells] using linked.1.contains

theorem finite_links (lattice : Lattice) (request : Request) :
    (links lattice request).Finite :=
  (Finset.finite_toSet _).subset (links_subset lattice request)

/-- On a small grid there are always enough numbers. -/
theorem numbered_of_small (request : Request)
    (small : lattice.grid.size * lattice.grid.size ≤ Storage.indices) :
    Numbered lattice request := by
  have count := Set.ncard_le_ncard (links_subset lattice request) (Finset.finite_toSet _)
  rw [Set.ncard_coe_finset, Finset.card_product,
    List.toFinset_card_of_nodup lattice.grid.nodup_cells, Grid.length_cells] at count
  exact ⟨Nat.le_trans (Nat.le_mul_self _) small, Nat.le_trans count small⟩

/-- Steps to the sides of cells are different links. -/
theorem card_le_ncard_links (steps : Finset (Cell × Side))
    (linked : ∀ step ∈ steps, Linked lattice request step.1 (step.1.shift step.2)) :
    steps.card ≤ (links lattice request).ncard := by
  have injective : Function.Injective fun step : Cell × Side => (step.1, step.1.shift step.2) := by
    rintro ⟨cell, side⟩ ⟨other, turn⟩ same
    simp only [Prod.mk.injEq] at same
    rcases same with ⟨rfl, same⟩
    rw [cell.shift_injective same]
  rw [← Set.ncard_coe_finset]
  refine Set.ncard_le_ncard_of_injOn (fun step => (step.1, step.1.shift step.2)) ?_
    injective.injOn (finite_links lattice request)
  intro step member
  exact ⟨linked step member, step.1.shift_ne step.2⟩

end Route

end LatticeSurgery
