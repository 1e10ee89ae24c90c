import LatticeSurgery.Proofs.Route.Requests

namespace LatticeSurgery

open Result

/-! # Patches around a hub

On a lattice of patches of one cell each, patches that have exits to one connected part of
the free cells can all be merged. -/

/-- A patch of one cell that takes part in no merge. -/
structure Patch.Tidy (patch : Patch) : Prop where
  role_ne : patch.role ≠ .ancilla
  plain : ∀ edge ∈ patch.edges, edge.border.isStitched = false
  cell : ∃ cell, patch.cells = [cell] ∧ ∀ edge ∈ patch.edges, edge.cell = cell

structure Lattice.Tidy (lattice : Lattice) : Prop extends lattice.Roomy where
  patch : ∀ patch ∈ lattice.patches, patch.Tidy

namespace Lattice

variable {lattice : Lattice}

/-- An open cell across a border of a patch that exposes the operator. -/
def Exit (lattice : Lattice) (cell : Cell) (basis : Pauli) (exit : Cell) : Prop :=
  ∃ patch, lattice.patchAt? cell = some patch ∧ ∃ edge ∈ patch.edges,
    Border.exposing? basis = some edge.border ∧ exit = cell.shift edge.side ∧ lattice.Open exit

namespace Tidy

variable (tidy : lattice.Tidy)
include tidy

/-- The only patch on a cell covers nothing else. -/
theorem eq_cell {cell : Cell} {patch : Patch} (found : lattice.patchAt? cell = some patch) :
    patch.cells = [cell] ∧ ∀ edge ∈ patch.edges, edge.cell = cell := by
  rcases mem_of_patchAt? found with ⟨member, covered⟩
  rcases (tidy.patch patch member).cell with ⟨only, cells, own⟩
  rw [cells, List.mem_singleton] at covered
  rw [covered]
  exact ⟨cells, own⟩

theorem within : lattice.Within where
  toSized := tidy.sized
  edge patch member edge edgeMember := by
    rcases (tidy.patch patch member).cell with ⟨only, cells, own⟩
    have covered : only ∈ lattice.cells := List.mem_flatMap.mpr ⟨patch, member, by simp [cells]⟩
    rw [own edge edgeMember]
    exact (tidy.cell only covered).within

/-- An exit lies beyond a gate on the cell of its patch. -/
theorem exists_gate {cell exit : Cell} {basis : Pauli} (exits : lattice.Exit cell basis exit) :
    ∃ edge, lattice.Gate cell basis edge ∧ edge.cell = cell ∧ edge.beyond = exit := by
  rcases exits with ⟨patch, found, edge, member, exposes, rfl, isOpen⟩
  have own := (tidy.eq_cell found).2 edge member
  have beyond : edge.beyond = cell.shift edge.side := by rw [Edge.beyond, own]
  exact ⟨edge, ⟨⟨patch, found, member⟩, exposes, beyond ▸ isOpen⟩, own, beyond⟩

end Tidy

end Lattice

namespace Route

variable {lattice : Lattice}

/-- Two open cells side by side. -/
def Adjacent (lattice : Lattice) (cell next : Cell) : Prop :=
  lattice.Open cell ∧ lattice.Open next ∧ ∃ side, next = cell.shift side

theorem Adjacent.symm {cell next : Cell} (adjacent : Adjacent lattice cell next) :
    Adjacent lattice next cell := by
  rcases adjacent with ⟨isOpen, nextOpen, side, rfl⟩
  exact ⟨nextOpen, isOpen, side.opposite, (cell.shift_opposite side).symm⟩

theorem Adjacent.linked {cell next : Cell} (adjacent : Adjacent lattice cell next)
    (request : Request) : Linked lattice request cell next := by
  rcases adjacent with ⟨isOpen, nextOpen, side, rfl⟩
  exact .adjacent side isOpen nextOpen

/-- The cell has an exit for the operator that is connected to the hub. -/
def Accessible (lattice : Lattice) (hub : Cell) (entry : Cell × Pauli) : Prop :=
  ∃ exit, lattice.Exit entry.1 entry.2 exit ∧ Relation.ReflTransGen (Adjacent lattice) hub exit

theorem valid_of_accessible (tidy : lattice.Tidy) {request : Request}
    (several : 2 ≤ request.length) (distinct : (request.map Prod.fst).Nodup) {hub : Cell}
    (accessible : ∀ entry ∈ request, Accessible lattice hub entry) : Valid lattice request := by
  refine ⟨several, fun entry member => ?_, fun entry member => ?_, distinct⟩
  · rcases accessible entry member with ⟨_, ⟨_, _, _, _, exposed, _⟩, _⟩
    rw [← not_not (a := entry.2 = .X ∨ entry.2 = .Z), ← exposing?_isNone, exposed]
    exact Bool.false_ne_true
  · rcases accessible entry member with ⟨_, ⟨patch, found, _⟩, _⟩
    rw [Lattice.representative?, found]
    simp [(tidy.eq_cell found).1]

/-- Two patches that can be reached from one hub can be reached from each other. -/
theorem Accessible.reaches (tidy : lattice.Tidy) {targets : Request} {hub : Cell}
    {source target : Cell × Pauli} (fromSource : Accessible lattice hub source)
    (fromTarget : Accessible lattice hub target) (member : target ∈ targets) :
    Relation.ReflTransGen (Linked lattice (source :: targets)) source.1 target.1 := by
  rcases fromSource with ⟨start, leaves, fromHub⟩
  rcases fromTarget with ⟨exit, enters, onward⟩
  rcases tidy.exists_gate leaves with ⟨gate, isGate, own, beyond⟩
  rcases tidy.exists_gate enters with ⟨otherGate, isOtherGate, otherOwn, otherBeyond⟩
  have inside {cell : Cell} {basis : Pauli} {edge : Edge} (isGate : lattice.Gate cell basis edge) :
      lattice.grid.contains cell = true := by
    rcases isGate.patch with ⟨patch, found, _⟩
    exact tidy.contains_of_mem (Lattice.mem_cells_of_patchAt? found)
  have first : Linked lattice (source :: targets) source.1 start := by
    rw [← beyond, ← own]
    exact .leave rfl isGate (own ▸ inside isGate)
  have last : Linked lattice (source :: targets) exit target.1 := by
    rw [← otherBeyond, ← otherOwn]
    exact .enter member isOtherGate (otherOwn ▸ inside isOtherGate)
  have toHub : Relation.ReflTransGen (Adjacent lattice) start hub :=
    fromHub.swap.lift id fun _ _ => Adjacent.symm
  have between := (toHub.trans onward).lift id fun _ _ (adjacent : Adjacent lattice _ _) =>
    adjacent.linked (source :: targets)
  exact .head first (between.tail last)

/-- A request of patches that can all be reached from one hub is routed. -/
theorem exists_route (tidy : lattice.Tidy) {request : Request} (several : 2 ≤ request.length)
    (distinct : (request.map Prod.fst).Nodup) {hub : Cell}
    (accessible : ∀ entry ∈ request, Accessible lattice hub entry)
    (numbered : Numbered lattice request) :
    ∃ routed, lattice.route request = .ok routed ∧ Laid lattice routed.1 := by
  have valid := valid_of_accessible tidy several distinct accessible
  match request with
  | [] => exact absurd several (by simp)
  | source :: targets =>
      have fromSource := accessible source List.mem_cons_self
      have reaches : ∀ target ∈ targets,
          Relation.ReflTransGen (Linked lattice (source :: targets)) source.1 target.1 :=
        fun target member => fromSource.reaches tidy (accessible target (.tail _ member)) member
      rcases exists_lay tidy.within valid numbered reaches with ⟨region, after, granted, laid, _⟩
      exact ⟨(after, region), by rw [Lattice.route, granted], laid⟩

/-! ## Numbers

Every link of a tidy lattice leads from a cell to one of its neighbours. -/

theorem Linked.exists_side (tidy : lattice.Tidy) {request : Request} {cell next : Cell}
    (linked : Linked lattice request cell next) (differ : next ≠ cell) :
    ∃ side, next = cell.shift side := by
  have own {source : Cell} {basis : Pauli} {edge : Edge} (gate : lattice.Gate source basis edge) :
      edge.cell = source := by
    rcases gate.patch with ⟨patch, found, member⟩
    exact (tidy.eq_cell found).2 edge member
  cases linked with
  | adjacent side => exact ⟨side, rfl⟩
  | toGate _ gate => exact absurd (own gate) differ
  | @leave _ _ edge => exact ⟨edge.side, rfl⟩
  | @enter _ _ edge => exact ⟨edge.side.opposite, (edge.cell.shift_opposite edge.side).symm⟩
  | fromGate _ gate => exact absurd (own gate).symm differ

/-- The steps to the right and to the left on a grid, and those down and up. -/
private def gridSteps (rows cols : Nat) : List (Cell × Cell) :=
  let across := List.range (cols - 1) ×ˢ List.range rows
  let down := List.range cols ×ˢ List.range (rows - 1)
  (across.map fun place => (⟨place.1, place.2⟩, ⟨place.1 + 1, place.2⟩)) ++
    (across.map fun place => (⟨place.1 + 1, place.2⟩, ⟨place.1, place.2⟩)) ++
    (down.map fun place => (⟨place.1, place.2⟩, ⟨place.1, place.2 + 1⟩)) ++
    down.map fun place => (⟨place.1, place.2 + 1⟩, ⟨place.1, place.2⟩)

private theorem length_gridSteps (rows cols : Nat) :
    (gridSteps rows cols).length = 2 * ((cols - 1) * rows) + 2 * (cols * (rows - 1)) := by
  simp only [gridSteps, List.length_append, List.length_map, List.length_product,
    List.length_range]
  omega

private theorem mem_gridSteps {rows cols : Nat} {cell : Cell} {side : Side}
    (inside : (0 ≤ cell.col ∧ cell.col < cols) ∧ 0 ≤ cell.row ∧ cell.row < rows)
    (nextInside : (0 ≤ (cell.shift side).col ∧ (cell.shift side).col < cols) ∧
      0 ≤ (cell.shift side).row ∧ (cell.shift side).row < rows) :
    (cell, cell.shift side) ∈ gridSteps rows cols := by
  rcases cell with ⟨col, row⟩
  simp only [gridSteps, List.mem_append, List.mem_map, Prod.exists, List.mem_product,
    List.mem_range, Prod.mk.injEq, Cell.mk.injEq, Cell.shift] at inside nextInside ⊢
  cases side with
  | top =>
      refine .inr ⟨col.toNat, (row - 1).toNat, ?_⟩
      simp only [Side.offset] at nextInside ⊢
      omega
  | bottom =>
      refine .inl (.inr ⟨col.toNat, row.toNat, ?_⟩)
      simp only [Side.offset] at nextInside ⊢
      omega
  | left =>
      refine .inl (.inl (.inr ⟨(col - 1).toNat, row.toNat, ?_⟩))
      simp only [Side.offset] at nextInside ⊢
      omega
  | right =>
      refine .inl (.inl (.inl ⟨col.toNat, row.toNat, ?_⟩))
      simp only [Side.offset] at nextInside ⊢
      omega

/-- A grid of a given size has at most as many links as there are steps on it. -/
theorem ncard_links_le (tidy : lattice.Tidy) (request : Request) {rows cols : Nat}
    (low : lattice.grid.rows ≤ rows) (narrow : lattice.grid.cols ≤ cols) :
    (links lattice request).ncard ≤ 2 * ((cols - 1) * rows) + 2 * (cols * (rows - 1)) := by
  have steps : links lattice request ⊆ (gridSteps rows cols).toFinset := by
    intro link isLink
    rcases isLink with ⟨linked, differ⟩
    have inside := Lattice.contains_grid.mp linked.contains.1
    have nextInside := Lattice.contains_grid.mp linked.contains.2
    rcases linked.exists_side tidy differ with ⟨side, next⟩
    have same : link = (link.1, link.1.shift side) := Prod.ext rfl next
    rw [next] at nextInside
    rw [List.coe_toFinset, Set.mem_ofPred_eq, same]
    exact mem_gridSteps (by omega) (by omega)
  calc (links lattice request).ncard
      ≤ (gridSteps rows cols).toFinset.card := by
        rw [← Set.ncard_coe_finset]
        exact Set.ncard_le_ncard steps (Finset.finite_toSet _)
    _ ≤ (gridSteps rows cols).length := List.toFinset_card_le _
    _ = _ := length_gridSteps rows cols

end Route

end LatticeSurgery
