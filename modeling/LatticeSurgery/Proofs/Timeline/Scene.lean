import LatticeSurgery.Proofs.Lattice.Outline

namespace LatticeSurgery

open Result Route

/-! # Scenes of a computation

Between two operations of a computation on the simple layout the patches stand at known
places: the qubits, the magic states that are left, the first of them with a name while it is
in use, and at most one ancilla patch. The second row is always free. -/

structure Scene where
  qubits : List PatchId
  /-- The number of magic states of the whole computation. -/
  magic : Nat
  /-- The number of magic states that are used up. -/
  drawn : Nat
  bound : Option PatchId
  ancilla : Option PatchId

namespace Scene

variable (scene : Scene)

def cols : Nat := max (2 * scene.qubits.length) 1

def qubitCell (position : Nat) : Cell := ⟨2 * position, 0⟩

def magicCell (index : Nat) : Cell := ⟨scene.cols + index, 0⟩

def ancillaCell : Cell := ⟨0, 2⟩

/-- The number of magic states without a name. -/
def left : Nat := scene.magic - (scene.drawn + scene.bound.toList.length)

def unboundCells : List Cell :=
  (List.range' (scene.drawn + scene.bound.toList.length) scene.left).map scene.magicCell

def qubitOutline (entry : PatchId × Nat) : Patch :=
  ((Patch.square (qubitCell entry.2) .qubit .zero).withId entry.1).outline

def magicOutline (cell : Cell) : Patch := (Patch.rotatedSquare cell .distillation .magic).outline

def ancillaOutline (id : PatchId) : Patch :=
  ((Patch.square ancillaCell .qubit .zero).withId id).outline

def qubitOutlines : List Patch := scene.qubits.zipIdx.map qubitOutline

def boundOutlines : List Patch :=
  scene.bound.toList.map (magicOutline (scene.magicCell scene.drawn)).withId

def unboundOutlines : List Patch := scene.unboundCells.map magicOutline

def ancillaOutlines : List Patch := scene.ancilla.toList.map ancillaOutline

def lattice : Lattice :=
  ⟨scene.qubitOutlines ++ scene.boundOutlines ++ scene.unboundOutlines ++ scene.ancillaOutlines,
    3, scene.cols⟩

/-- The patches of a scene. -/
inductive Stands : Patch → Prop
  | qubit {position : Nat} {id : PatchId} (located : scene.qubits[position]? = some id) :
      Stands (qubitOutline (id, position))
  | bound {id : PatchId} (named : scene.bound = some id) :
      Stands ((magicOutline (scene.magicCell scene.drawn)).withId id)
  | unbound {index : Nat} (low : scene.drawn + scene.bound.toList.length ≤ index)
      (high : index < scene.magic) : Stands (magicOutline (scene.magicCell index))
  | ancilla {id : PatchId} (named : scene.ancilla = some id) : Stands (ancillaOutline id)

/-- The identifiers are distinct, and the columns are words. -/
structure Sound : Prop where
  distinct : (scene.qubits ++ scene.bound.toList ++ scene.ancilla.toList).Nodup
  enough : scene.drawn + scene.bound.toList.length ≤ scene.magic
  fits : scene.cols + scene.magic < 2147483648

variable {scene}

theorem mem_unboundCells {cell : Cell} :
    cell ∈ scene.unboundCells ↔ ∃ index, scene.drawn + scene.bound.toList.length ≤ index ∧
      index < scene.magic ∧ scene.magicCell index = cell := by
  simp only [unboundCells, List.mem_map, List.mem_range'_1, left]
  constructor
  · rintro ⟨index, inside, rfl⟩
    exact ⟨index, inside.1, by omega, rfl⟩
  · rintro ⟨index, low, high, rfl⟩
    exact ⟨index, ⟨low, by omega⟩, rfl⟩

theorem mem_patches {patch : Patch} : patch ∈ scene.lattice.patches ↔ scene.Stands patch := by
  simp only [lattice, List.mem_append, qubitOutlines, boundOutlines, unboundOutlines,
    ancillaOutlines, List.mem_map, Prod.exists, List.mem_zipIdx_iff_getElem?, Option.mem_toList,
    mem_unboundCells]
  constructor
  · rintro (((⟨id, position, located, rfl⟩ | ⟨id, named, rfl⟩) |
      ⟨_, ⟨index, low, high, rfl⟩, rfl⟩) | ⟨id, named, rfl⟩)
    · exact .qubit located
    · exact .bound named
    · exact .unbound low high
    · exact .ancilla named
  · intro stands
    cases stands with
    | qubit located => exact .inl (.inl (.inl ⟨_, _, located, rfl⟩))
    | bound named => exact .inl (.inl (.inr ⟨_, named, rfl⟩))
    | unbound low high => exact .inl (.inr ⟨_, ⟨_, low, high, rfl⟩, rfl⟩)
    | ancilla named => exact .inr ⟨_, named, rfl⟩

theorem cols_pos : 0 < scene.cols := by
  rw [cols]
  omega

theorem two_mul_lt_cols {position : Nat} {id : PatchId}
    (located : scene.qubits[position]? = some id) : 2 * position + 1 < scene.cols := by
  have inside := (List.getElem?_eq_some_iff.mp located).1
  rw [cols]
  omega

/-- Only the first and the third row are ever covered. -/
theorem coordinates_of_mem (sound : scene.Sound) {cell : Cell}
    (member : cell ∈ scene.lattice.cells) :
    cell.row = 0 ∧ ((∃ position : Nat, cell.col = 2 * position ∧ 2 * position + 1 < scene.cols) ∨
      ∃ index < scene.magic, cell.col = scene.cols + index) ∨
    cell = ancillaCell ∧ scene.ancilla ≠ none := by
  rcases List.mem_flatMap.mp member with ⟨patch, patchMember, covered⟩
  have enough := sound.enough
  cases mem_patches.mp patchMember with
  | @qubit position _ located =>
      rw [List.mem_singleton.mp covered]
      exact .inl ⟨rfl, .inl ⟨position, rfl, two_mul_lt_cols located⟩⟩
  | bound named =>
      rw [List.mem_singleton.mp covered]
      rw [named, Option.toList_some, List.length_singleton] at enough
      exact .inl ⟨rfl, .inr ⟨scene.drawn, enough, rfl⟩⟩
  | @unbound index _ high =>
      rw [List.mem_singleton.mp covered]
      exact .inl ⟨rfl, .inr ⟨index, high, rfl⟩⟩
  | ancilla named => exact .inr ⟨List.mem_singleton.mp covered, by simp [named]⟩

theorem tidy_lattice (sound : scene.Sound) : scene.lattice.Tidy where
  cell := by
    intro cell member
    have fits := sound.fits
    rw [Cell.Roomy, Word.Fits32, Word.Fits32, Word.limit32]
    rcases coordinates_of_mem sound member with
      ⟨row, ⟨position, col, below⟩ | ⟨index, below, col⟩⟩ | ⟨rfl, _⟩
    · omega
    · omega
    · simp [ancillaCell]
  leastRows := by simp [lattice, Word.Fits32, Word.limit32]
  leastCols := by
    have fits := sound.fits
    simp only [lattice, Word.Fits32, Word.limit32]
    omega
  patch := by
    intro patch member
    have tidyQubit (cell : Cell) : (Patch.square cell .qubit .zero).outline.Tidy :=
      Patch.tidy_outline.mpr (Patch.tidy_bordered (by decide) _ rfl rfl)
    have tidyMagic (cell : Cell) : (magicOutline cell).Tidy :=
      Patch.tidy_outline.mpr (Patch.tidy_bordered (by decide) _ rfl rfl)
    cases mem_patches.mp member with
    | qubit => exact (tidyQubit _).withId _
    | bound => exact (tidyMagic _).withId _
    | unbound => exact tidyMagic _
    | ancilla => exact (tidyQubit _).withId _

theorem qubitCell_inj {position other : Nat} (same : qubitCell position = qubitCell other) :
    position = other := by
  simp only [qubitCell, Cell.mk.injEq] at same
  omega

theorem magicCell_inj {index other : Nat} (same : scene.magicCell index = scene.magicCell other) :
    index = other := by
  simp only [magicCell, Cell.mk.injEq] at same
  omega

theorem qubitCell_ne_magicCell {position : Nat} {id : PatchId}
    (located : scene.qubits[position]? = some id) (index : Nat) :
    qubitCell position ≠ scene.magicCell index := by
  have below := two_mul_lt_cols located
  simp only [qubitCell, magicCell, ne_eq, Cell.mk.injEq]
  omega

theorem ne_ancillaCell {cell : Cell} (top : cell.row = 0) : cell ≠ ancillaCell := by
  rintro rfl
  simp [ancillaCell] at top

/-- No cell is covered twice. -/
theorem Stands.eq_of_covers {patch other : Patch} {cell : Cell} (stands : scene.Stands patch)
    (otherStands : scene.Stands other) (covered : cell ∈ patch.cells)
    (alsoCovered : cell ∈ other.cells) : patch = other := by
  have here {found : Cell} (member : cell ∈ [found]) : cell = found := List.mem_singleton.mp member
  cases stands with
  | qubit located =>
      rw [here covered] at alsoCovered
      cases otherStands with
      | qubit otherLocated =>
          cases qubitCell_inj (List.mem_singleton.mp alsoCovered)
          rw [located, Option.some.injEq] at otherLocated
          rw [otherLocated]
      | bound | unbound =>
          exact absurd (List.mem_singleton.mp alsoCovered) (qubitCell_ne_magicCell located _)
      | ancilla => exact absurd (List.mem_singleton.mp alsoCovered) (ne_ancillaCell rfl)
  | bound named =>
      rw [here covered] at alsoCovered
      cases otherStands with
      | qubit located =>
          exact absurd (List.mem_singleton.mp alsoCovered).symm (qubitCell_ne_magicCell located _)
      | bound otherNamed =>
          rw [named, Option.some.injEq] at otherNamed
          rw [otherNamed]
      | unbound low =>
          rw [named, ← magicCell_inj (List.mem_singleton.mp alsoCovered)] at low
          exact absurd low (Nat.not_succ_le_self _)
      | ancilla => exact absurd (List.mem_singleton.mp alsoCovered) (ne_ancillaCell rfl)
  | unbound low high =>
      rw [here covered] at alsoCovered
      cases otherStands with
      | qubit located =>
          exact absurd (List.mem_singleton.mp alsoCovered).symm (qubitCell_ne_magicCell located _)
      | bound named =>
          rw [named, magicCell_inj (List.mem_singleton.mp alsoCovered)] at low
          exact absurd low (Nat.not_succ_le_self _)
      | unbound => rw [magicCell_inj (List.mem_singleton.mp alsoCovered)]
      | ancilla => exact absurd (List.mem_singleton.mp alsoCovered) (ne_ancillaCell rfl)
  | ancilla named =>
      rw [here covered] at alsoCovered
      cases otherStands with
      | qubit | bound | unbound =>
          exact absurd (List.mem_singleton.mp alsoCovered).symm (ne_ancillaCell rfl)
      | ancilla otherNamed =>
          rw [named, Option.some.injEq] at otherNamed
          rw [otherNamed]

theorem patchAt?_eq {patch : Patch} {cell : Cell} (stands : scene.Stands patch)
    (covered : cell ∈ patch.cells) : scene.lattice.patchAt? cell = some patch := by
  cases found : scene.lattice.patchAt? cell with
  | none =>
      have free : scene.lattice.isFree cell = true := by
        rw [Lattice.isFree, found]
        rfl
      refine absurd (List.mem_flatMap.mpr ⟨patch, mem_patches.mpr stands, covered⟩) ?_
      exact Lattice.isFree_iff.mp free
  | some other =>
      rcases Lattice.mem_of_patchAt? found with ⟨member, alsoCovered⟩
      rw [stands.eq_of_covers (mem_patches.mp member) covered alsoCovered]

/-! ## Scenes that follow each other -/

theorem unboundCells_eq_cons (unbound : scene.bound = none) (remaining : scene.drawn < scene.magic)
    (id : PatchId) :
    scene.unboundCells =
      scene.magicCell scene.drawn :: { scene with bound := some id }.unboundCells := by
  have count : scene.magic - scene.drawn = scene.magic - (scene.drawn + 1) + 1 := by omega
  simp only [unboundCells, left, unbound, Option.toList_none, List.length_nil, Nat.add_zero,
    count, List.range'_succ, List.map_cons, Option.toList_some, List.length_singleton]
  rfl

theorem Sound.bind (sound : scene.Sound) {id : PatchId} (unbound : scene.bound = none)
    (remaining : scene.drawn < scene.magic) (fresh : id ∉ scene.qubits ++ scene.ancilla.toList) :
    { scene with bound := some id }.Sound := by
  refine ⟨?_, remaining, sound.fits⟩
  have distinct := sound.distinct
  rw [unbound, Option.toList_none, List.append_nil] at distinct
  rw [Option.toList_some, List.append_assoc, List.singleton_append, List.nodup_middle]
  exact List.nodup_cons.mpr ⟨fresh, distinct⟩

theorem Sound.place (sound : scene.Sound) {id : PatchId} (unplaced : scene.ancilla = none)
    (fresh : id ∉ scene.qubits ++ scene.bound.toList) :
    { scene with ancilla := some id }.Sound := by
  refine ⟨?_, sound.enough, sound.fits⟩
  have distinct := sound.distinct
  rw [unplaced, Option.toList_none, List.append_nil] at distinct
  rw [Option.toList_some, ← List.concat_eq_append]
  exact distinct.concat fresh

theorem Sound.useMagic (sound : scene.Sound) {id : PatchId} (named : scene.bound = some id) :
    { scene with drawn := scene.drawn + 1, bound := none }.Sound := by
  have distinct := sound.distinct
  have enough := sound.enough
  rw [named, Option.toList_some] at distinct enough
  exact ⟨distinct.sublist (by simp), enough, sound.fits⟩

theorem Sound.useAncilla (sound : scene.Sound) : { scene with ancilla := none }.Sound :=
  ⟨sound.distinct.sublist (by simp), sound.enough, sound.fits⟩

/-! ## The second row connects all patches -/

theorem cols_le_grid : (scene.cols : Int) ≤ scene.lattice.grid.cols := Lattice.le_reach _ _

theorem rows_le_grid : 3 ≤ scene.lattice.grid.rows := Lattice.le_reach _ _

theorem open_of_not_mem {col row : Int} (low : 0 ≤ col) (high : col < scene.lattice.grid.cols)
    (rowLow : 0 ≤ row) (rowHigh : row < 3) (free : (⟨col, row⟩ : Cell) ∉ scene.lattice.cells) :
    scene.lattice.Open ⟨col, row⟩ := by
  have rows : 3 ≤ scene.lattice.grid.rows := rows_le_grid
  refine ⟨Lattice.contains_grid.mpr ⟨⟨low, high⟩, rowLow, ?_⟩, Lattice.isFree_iff.mpr free⟩
  simp only
  omega

theorem open_second_row (sound : scene.Sound) {col : Int} (low : 0 ≤ col)
    (high : col < scene.lattice.grid.cols) : scene.lattice.Open ⟨col, 1⟩ := by
  refine open_of_not_mem low high (by decide) (by decide) fun member => ?_
  rcases coordinates_of_mem sound member with ⟨row, _⟩ | ⟨same, _⟩
  · simp at row
  · simp [ancillaCell] at same

/-- The cell from which every patch can be reached. -/
def hub : Cell := ⟨0, 1⟩

theorem reaches_second_row (sound : scene.Sound) (col : Nat)
    (high : (col : Int) < scene.lattice.grid.cols) :
    Relation.ReflTransGen (Adjacent scene.lattice) hub ⟨col, 1⟩ := by
  induction col with
  | zero => exact .refl
  | succ col induction =>
      refine (induction (by omega)).tail ⟨open_second_row sound (by omega) (by omega),
        open_second_row sound (by omega) high, .right, ?_⟩
      simp [Cell.shift, Side.offset]

/-- A patch of the scene with an operator that can be measured on it in a merge. -/
inductive Offers (scene : Scene) : PatchId × Pauli → Cell → Prop
  | qubit {position : Nat} {id : PatchId} {basis : Pauli}
      (located : scene.qubits[position]? = some id) (plain : basis = .X ∨ basis = .Z) :
      Offers scene (id, basis) (qubitCell position)
  | bound {id : PatchId} (named : scene.bound = some id) :
      Offers scene (id, .Z) (scene.magicCell scene.drawn)
  | ancilla {id : PatchId} (named : scene.ancilla = some id) : Offers scene (id, .Z) ancillaCell

/-- An exit is a cell of the second row, or an open cell next to it. -/
private theorem accessible_of_exit (sound : scene.Sound) {patch : Patch}
    (stands : scene.Stands patch) {cell : Cell} {basis : Pauli} {side : Side} {border : Border}
    (covered : cell ∈ patch.cells) (edge : ⟨cell, side, border⟩ ∈ patch.edges)
    (exposed : Border.exposing? basis = some border) (col : Nat)
    (high : (col : Int) < scene.lattice.grid.cols)
    (near : cell.shift side = ⟨col, 1⟩ ∨
      scene.lattice.Open (cell.shift side) ∧ ∃ turn, cell.shift side = Cell.shift ⟨col, 1⟩ turn) :
    Accessible scene.lattice hub (cell, basis) := by
  have row : scene.lattice.Open ⟨col, 1⟩ := open_second_row sound (by omega) high
  have along := reaches_second_row sound col high
  have found := patchAt?_eq stands covered
  rcases near with onRow | ⟨isOpen, turn⟩
  · refine ⟨_, ⟨patch, found, _, edge, exposed, rfl, ?_⟩, ?_⟩
    · exact onRow.symm ▸ row
    · exact onRow.symm ▸ along
  · exact ⟨_, ⟨patch, found, _, edge, exposed, rfl, isOpen⟩, along.tail ⟨row, isOpen, turn⟩⟩

private theorem open_beside_qubit (sound : scene.Sound) {position : Nat} {id : PatchId}
    (located : scene.qubits[position]? = some id) :
    scene.lattice.Open ((qubitCell position).shift .right) := by
  have below := two_mul_lt_cols located
  have inGrid : (scene.cols : Int) ≤ scene.lattice.grid.cols := cols_le_grid
  have beside : (qubitCell position).shift .right = ⟨2 * position + 1, 0⟩ := by
    simp [qubitCell, Cell.shift, Side.offset]
  rw [beside]
  refine open_of_not_mem (by omega) (by omega) (by decide) (by decide) fun member => ?_
  rcases coordinates_of_mem sound member with ⟨_, ⟨other, col, _⟩ | ⟨index, _, col⟩⟩ | ⟨same, _⟩
  · simp only at col
    omega
  · simp only at col
    omega
  · exact ne_ancillaCell rfl same

private theorem open_beside_ancilla (sound : scene.Sound) (wide : 2 ≤ scene.cols) :
    scene.lattice.Open (ancillaCell.shift .right) := by
  have inGrid : (scene.cols : Int) ≤ scene.lattice.grid.cols := cols_le_grid
  have beside : ancillaCell.shift .right = ⟨1, 2⟩ := by decide
  rw [beside]
  refine open_of_not_mem (by decide) (by omega) (by decide) (by decide) fun member => ?_
  rcases coordinates_of_mem sound member with ⟨row, _⟩ | ⟨same, _⟩
  · simp at row
  · simp [ancillaCell] at same

/-- Every operator that a patch offers can be reached from the second row. -/
theorem Offers.accessible (sound : scene.Sound) (present : scene.qubits ≠ [])
    {factor : PatchId × Pauli} {cell : Cell} (offers : scene.Offers factor cell) :
    Accessible scene.lattice hub (cell, factor.2) := by
  have inGrid : (scene.cols : Int) ≤ scene.lattice.grid.cols := cols_le_grid
  cases offers with
  | @qubit position id basis located plain =>
      have below := two_mul_lt_cols located
      have stands := Stands.qubit located
      rcases plain with rfl | rfl
      · refine accessible_of_exit sound stands List.mem_cons_self (.tail _ List.mem_cons_self) rfl
          (2 * position) (by omega) (.inl ?_)
        simp [qubitCell, Cell.shift, Side.offset]
      · refine accessible_of_exit sound stands List.mem_cons_self
          (.tail _ (.tail _ (.tail _ List.mem_cons_self))) rfl (2 * position + 1) (by omega)
          (.inr ⟨open_beside_qubit sound located, .top, ?_⟩)
        simp [qubitCell, Cell.shift, Side.offset]
  | bound named =>
      have stands := Stands.bound named
      have inside := (tidy_lattice sound).contains_of_mem
        (List.mem_flatMap.mpr ⟨_, mem_patches.mpr stands, List.mem_cons_self⟩)
      refine accessible_of_exit sound stands List.mem_cons_self (.tail _ List.mem_cons_self) rfl
        (scene.cols + scene.drawn) (Lattice.contains_grid.mp inside).1.2 (.inl ?_)
      simp [magicCell, Cell.shift, Side.offset]
  | ancilla named =>
      have wide : 2 ≤ scene.cols := by
        have := List.length_pos_iff.mpr present
        rw [cols]
        omega
      exact accessible_of_exit sound (.ancilla named) List.mem_cons_self
        (.tail _ (.tail _ (.tail _ List.mem_cons_self))) rfl 1 (by omega)
        (.inr ⟨open_beside_ancilla sound wide, .bottom, rfl⟩)

/-! ## Room for numbers -/

theorem grid_rows_le (sound : scene.Sound) : scene.lattice.grid.rows ≤ 3 := by
  apply Lattice.reach_le (Int.le_refl 3)
  intro coordinate member
  rcases List.mem_map.mp member with ⟨cell, cellMember, rfl⟩
  rcases coordinates_of_mem sound cellMember with ⟨row, _⟩ | ⟨rfl, _⟩
  · omega
  · decide

theorem grid_cols_le (sound : scene.Sound) :
    scene.lattice.grid.cols ≤ scene.cols + scene.magic := by
  refine Lattice.reach_le (by simp only [lattice]; omega) fun coordinate member => ?_
  have wide : 0 < scene.cols := cols_pos
  rcases List.mem_map.mp member with ⟨cell, cellMember, rfl⟩
  rcases coordinates_of_mem sound cellMember with
    ⟨_, ⟨position, col, below⟩ | ⟨index, below, col⟩⟩ | ⟨rfl, _⟩
  · omega
  · omega
  · simp only [ancillaCell]
    omega

/-- The three rows of the grid may have more links than there are numbers. -/
def Crowded (scene : Scene) : Prop :=
  Storage.indices + 6 < 20 * scene.qubits.length + 10 * scene.magic

theorem numbered_of_not_crowded (sound : scene.Sound) (present : scene.qubits ≠ [])
    (spacious : ¬ scene.Crowded) {slice : Lattice} (shown : slice.outline = scene.lattice)
    (request : Request) : Numbered slice request := by
  have grid : slice.grid = scene.lattice.grid := shown ▸ Lattice.grid_outline.symm
  have rows : slice.grid.rows ≤ (3 : Nat) := grid ▸ grid_rows_le sound
  have cols : slice.grid.cols ≤ (scene.cols + scene.magic : Nat) := grid ▸ grid_cols_le sound
  have tidy : slice.Tidy := .of_outline (shown ▸ tidy_lattice sound)
  have many := List.length_pos_iff.mpr present
  have bound : 10 * (scene.cols + scene.magic) - 6 ≤ Storage.indices := by
    rw [Crowded] at spacious
    rw [Scene.cols]
    omega
  constructor
  · have size : slice.grid.size ≤ 3 * (scene.cols + scene.magic) :=
      Nat.mul_le_mul (by omega) (by omega)
    have wide : 0 < scene.cols := cols_pos
    omega
  · have links := ncard_links_le tidy request rows cols
    omega

/-- Cells that are free on every scene. -/
def Clear (scene : Scene) (cell : Cell) : Prop :=
  0 ≤ cell.col ∧ cell.col < 2 * scene.qubits.length ∧
    (cell.row = 0 ∧ cell.col % 2 = 1 ∨ cell.row = 1 ∨ cell.row = 2 ∧ cell.col ≠ 0)

theorem Clear.isOpen (sound : scene.Sound) {cell : Cell} (clear : scene.Clear cell) :
    scene.lattice.Open cell := by
  have inGrid : (scene.cols : Int) ≤ scene.lattice.grid.cols := cols_le_grid
  have wide : 2 * scene.qubits.length ≤ scene.cols := Nat.le_max_left _ _
  rcases clear with ⟨low, high, rows⟩
  refine open_of_not_mem low (by omega) (by omega) (by omega) fun member => ?_
  rcases coordinates_of_mem sound member with ⟨row, columns⟩ | ⟨same, _⟩
  · rcases columns with ⟨position, col, _⟩ | ⟨index, _, col⟩ <;> simp only at row col <;> omega
  · simp only [ancillaCell, Cell.mk.injEq] at same
    omega

/-- Steps between free cells around a qubit. Those within the column before the qubit belong to
the qubit before it. -/
private def stepsAround : Finset (Cell × Side) :=
  {(⟨-1, 1⟩, .right), (⟨0, 1⟩, .left), (⟨0, 1⟩, .right), (⟨1, 1⟩, .left),
    (⟨-1, 2⟩, .right), (⟨0, 2⟩, .left), (⟨0, 2⟩, .right), (⟨1, 2⟩, .left),
    (⟨0, 1⟩, .bottom), (⟨0, 2⟩, .top), (⟨1, 1⟩, .bottom), (⟨1, 2⟩, .top),
    (⟨1, 0⟩, .bottom), (⟨1, 1⟩, .top)}

/-- For the first qubit there is no column before it, and an ancilla patch may be below it. -/
private def stepsAtEdge : Finset (Cell × Side) :=
  {step ∈ stepsAround | ∃ cell ∈ [step.1, step.1.shift step.2], cell.col < 0 ∨ cell = ancillaCell}

private def stepAt (entry : Nat × (Cell × Side)) : Cell × Side :=
  (⟨2 * entry.1 + entry.2.1.col, entry.2.1.row⟩, entry.2.2)

private theorem stepAt_injOn (positions : Finset Nat) :
    Set.InjOn stepAt (positions ×ˢ stepsAround : Finset (Nat × (Cell × Side))) := by
  have columns : ∀ step ∈ stepsAround, step.1.col = -1 ∧ step.2 = .right ∨ step.1.col = 0 ∨
      step.1.col = 1 ∧ step.2 ≠ .right := by decide
  intro entry member other otherMember same
  have here := columns entry.2 (Finset.mem_product.mp member).2
  have there := columns other.2 (Finset.mem_product.mp otherMember).2
  rcases entry with ⟨position, ⟨col, row⟩, side⟩
  rcases other with ⟨otherPosition, ⟨otherCol, otherRow⟩, otherSide⟩
  simp only [stepAt, Prod.mk.injEq, Cell.mk.injEq] at same here there
  rcases same with ⟨⟨sameCol, rfl⟩, rfl⟩
  have both : position = otherPosition ∧ col = otherCol := by
    by_cases right : side = .right
    · simp only [right, and_true, ne_eq, not_true, and_false, or_false] at here there
      omega
    · simp only [right, and_false, false_or, ne_eq, not_false_eq_true, and_true] at here there
      omega
  rw [both.1, both.2]

/-- The steps that are left lead from free cells to free cells. -/
private theorem clear_stepAt {entry : Nat × (Cell × Side)}
    (inside : entry.1 < scene.qubits.length) (around : entry.2 ∈ stepsAround)
    (off : ¬ (entry.1 = 0 ∧ entry.2 ∈ stepsAtEdge)) :
    scene.Clear (stepAt entry).1 ∧ scene.Clear ((stepAt entry).1.shift (stepAt entry).2) := by
  have near : ∀ step ∈ stepsAround, ∀ cell ∈ [step.1, step.1.shift step.2],
      -1 ≤ cell.col ∧ cell.col ≤ 1 ∧
        (cell.row = 0 ∧ cell.col ≠ 0 ∨ cell.row = 1 ∨ cell.row = 2) := by decide
  have moved {cell : Cell} (member : cell ∈ [entry.2.1, entry.2.1.shift entry.2.2]) :
      scene.Clear ⟨2 * entry.1 + cell.col, cell.row⟩ := by
    have bounds := near entry.2 around cell member
    have first : entry.1 = 0 → ¬ (cell.col < 0 ∨ cell = ancillaCell) := fun zero blocked =>
      off ⟨zero, Finset.mem_filter.mpr ⟨around, cell, member, blocked⟩⟩
    rcases cell with ⟨col, row⟩
    simp only [ancillaCell, Cell.mk.injEq] at bounds first
    simp only [Clear]
    omega
  have shifted : (stepAt entry).1.shift (stepAt entry).2 =
      ⟨2 * entry.1 + (entry.2.1.shift entry.2.2).col, (entry.2.1.shift entry.2.2).row⟩ := by
    simp only [stepAt, Cell.shift, Int.add_assoc]
  rw [shifted]
  exact ⟨moved List.mem_cons_self, moved (.tail _ List.mem_cons_self)⟩

private def stepEntries (count : Nat) : Finset (Nat × (Cell × Side)) :=
  (Finset.range count ×ˢ stepsAround) \ ({0} ×ˢ stepsAtEdge)

private theorem le_card_stepEntries (count : Nat) : 14 * count - 8 ≤ (stepEntries count).card := by
  have around : stepsAround.card = 14 := by decide
  have atEdge : stepsAtEdge.card = 8 := by decide
  have removed := Finset.le_card_sdiff ({0} ×ˢ stepsAtEdge) (Finset.range count ×ˢ stepsAround)
  rw [Finset.card_product, Finset.card_product, Finset.card_range, Finset.card_singleton, around,
    atEdge] at removed
  rw [stepEntries]
  omega

/-- For every qubit there are seven pairs of free cells side by side, except that for the first
one there may be only three. -/
theorem fourteen_mul_le_ncard_links (sound : scene.Sound) {slice : Lattice}
    (shown : slice.outline = scene.lattice) (request : Request) :
    14 * scene.qubits.length ≤ (links slice request).ncard + 8 := by
  have isOpen {cell : Cell} (clear : scene.Clear cell) : slice.Open cell :=
    Lattice.open_outline.mp (shown ▸ clear.isOpen sound)
  have enough := le_card_stepEntries scene.qubits.length
  have injective : Set.InjOn stepAt (stepEntries scene.qubits.length) :=
    (stepAt_injOn _).mono (Finset.coe_subset.mpr Finset.sdiff_subset)
  have counted : ((stepEntries scene.qubits.length).image stepAt).card ≤
      (links slice request).ncard := by
    refine card_le_ncard_links _ fun step member => ?_
    rcases Finset.mem_image.mp member with ⟨entry, isEntry, rfl⟩
    rw [stepEntries, Finset.mem_sdiff, Finset.mem_product, Finset.mem_product, Finset.mem_range,
      Finset.mem_singleton] at isEntry
    have clear := clear_stepAt isEntry.1.1 isEntry.1.2 isEntry.2
    exact .adjacent _ (isOpen clear.1) (isOpen clear.2)
  rw [Finset.card_image_of_injOn injective] at counted
  omega

/-- The free cells around the qubits have more links than there are numbers. -/
def Wide (scene : Scene) : Prop := Storage.indices + 8 < 14 * scene.qubits.length

theorem not_numbered_of_wide (sound : scene.Sound) (wide : scene.Wide) {slice : Lattice}
    (shown : slice.outline = scene.lattice) (request : Request) : ¬ Numbered slice request := by
  intro numbered
  have many := fourteen_mul_le_ncard_links sound shown request
  have few := numbered.links
  rw [Wide] at wide
  omega

/-! ## Names -/

theorem filterMap_id_patches :
    scene.lattice.patches.filterMap Patch.id =
      scene.qubits ++ scene.bound.toList ++ scene.ancilla.toList := by
  have qubits : scene.qubitOutlines.filterMap Patch.id = scene.qubits := by
    rw [qubitOutlines, List.filterMap_map]
    have name : Patch.id ∘ qubitOutline = some ∘ Prod.fst := rfl
    rw [name, List.filterMap_eq_map, List.zipIdx_map_fst]
  have bound : scene.boundOutlines.filterMap Patch.id = scene.bound.toList := by
    rw [boundOutlines, List.filterMap_map]
    exact List.filterMap_some
  have unbound : scene.unboundOutlines.filterMap Patch.id = [] := by
    rw [unboundOutlines, List.filterMap_map]
    exact List.filterMap_eq_nil_iff.mpr fun _ _ => rfl
  have ancilla : scene.ancillaOutlines.filterMap Patch.id = scene.ancilla.toList := by
    rw [ancillaOutlines, List.filterMap_map]
    exact List.filterMap_some
  rw [lattice, List.filterMap_append, List.filterMap_append, List.filterMap_append, qubits, bound,
    unbound, ancilla, List.append_nil]

theorem Offers.exists_stands {factor : PatchId × Pauli} {cell : Cell}
    (offers : scene.Offers factor cell) :
    ∃ patch, scene.Stands patch ∧ patch.id = some factor.1 ∧ patch.cells = [cell] := by
  cases offers with
  | qubit located => exact ⟨_, .qubit located, rfl, rfl⟩
  | bound named => exact ⟨_, .bound named, rfl, rfl⟩
  | ancilla named => exact ⟨_, .ancilla named, rfl, rfl⟩

theorem Offers.id_eq {factor other : PatchId × Pauli} {cell : Cell}
    (offers : scene.Offers factor cell) (otherOffers : scene.Offers other cell) :
    factor.1 = other.1 := by
  rcases offers.exists_stands with ⟨patch, stands, id, cells⟩
  rcases otherOffers.exists_stands with ⟨_, otherStands, otherId, otherCells⟩
  have same := stands.eq_of_covers otherStands (cells ▸ List.mem_singleton_self cell)
    (otherCells ▸ List.mem_singleton_self cell)
  rw [same, otherId, Option.some.injEq] at id
  exact id.symm

/-- Different patches are found at different cells. -/
theorem nodup_cells {factors : List (PatchId × Pauli)} {request : Request}
    (matched : List.Forall₂ (fun factor entry => scene.Offers factor entry.1 ∧ entry.2 = factor.2)
      factors request) (distinct : (factors.map Prod.fst).Nodup) :
    (request.map Prod.fst).Nodup := by
  induction matched with
  | nil => exact List.nodup_nil
  | @cons factor entry factors request offers matched induction =>
      rw [List.map_cons, List.nodup_cons] at distinct ⊢
      refine ⟨fun again => ?_, induction distinct.2⟩
      rcases List.mem_map.mp again with ⟨other, member, same⟩
      rcases exists_of_mem_right matched member with ⟨otherFactor, otherMember, otherOffers, _⟩
      rw [same] at otherOffers
      exact distinct.1 (offers.1.id_eq otherOffers ▸ List.mem_map_of_mem otherMember)

end Scene

end LatticeSurgery
