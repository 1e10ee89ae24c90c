import LatticeSurgery.Proofs.Route.Span

namespace LatticeSurgery

open Result

/-! # Merge regions

A merge region is made of contacts between cells. A contact of a patch that was there
stitches the border that faces the other cell, and a contact of an ancilla patch joins it to
the other cell. When all paths are laid, every contact is answered by the opposite one. -/

/-! ## Stitched borders -/

namespace Edge

/-- The edge, stitched if its cell has a contact across it. -/
def stitchedIn (contacts : List (Cell × Cell)) (edge : Edge) : Edge :=
  if (edge.cell, edge.beyond) ∈ contacts then edge.stitch else edge

@[simp] theorem cell_stitchedIn (contacts : List (Cell × Cell)) (edge : Edge) :
    (edge.stitchedIn contacts).cell = edge.cell := by
  rw [stitchedIn]
  split <;> rfl

@[simp] theorem side_stitchedIn (contacts : List (Cell × Cell)) (edge : Edge) :
    (edge.stitchedIn contacts).side = edge.side := by
  rw [stitchedIn]
  split <;> rfl

@[simp] theorem beyond_stitchedIn (contacts : List (Cell × Cell)) (edge : Edge) :
    (edge.stitchedIn contacts).beyond = edge.beyond := by
  simp [beyond]

theorem stitch_stitch (edge : Edge) : edge.stitch.stitch = edge.stitch := by
  rcases edge with ⟨cell, side, border⟩
  cases border <;> rfl

theorem stitchedIn_stitchedIn (contacts more : List (Cell × Cell)) (edge : Edge) :
    (edge.stitchedIn contacts).stitchedIn more = edge.stitchedIn (contacts ++ more) := by
  rw [stitchedIn, cell_stitchedIn, beyond_stitchedIn, stitchedIn, stitchedIn]
  simp only [List.mem_append]
  by_cases first : (edge.cell, edge.beyond) ∈ contacts
  · simp [first, stitch_stitch]
  · simp [first]

theorem unstitch_stitchedIn (contacts : List (Cell × Cell)) (edge : Edge) :
    (edge.stitchedIn contacts).unstitch = edge.unstitch := by
  rw [stitchedIn]
  split
  · exact edge.unstitch_stitch
  · rfl

theorem isStitched_stitchedIn {contacts : List (Cell × Cell)} {edge : Edge}
    (plain : edge.border.isStitched = false ∧ edge.border ≠ .join) :
    (edge.stitchedIn contacts).border.isStitched = true ↔ (edge.cell, edge.beyond) ∈ contacts := by
  rw [stitchedIn]
  split
  · next touches =>
      rcases edge with ⟨cell, side, border⟩
      cases border <;> simp_all [stitch, Border.stitched, Border.isStitched]
  · next apart => simp [plain.1, apart]

theorem border_stitchedIn_ne_join {contacts : List (Cell × Cell)} {edge : Edge}
    (plain : edge.border ≠ .join) : (edge.stitchedIn contacts).border ≠ .join := by
  rw [stitchedIn]
  split
  · rcases edge with ⟨cell, side, border⟩
    cases border <;> simp_all [stitch, Border.stitched]
  · exact plain

theorem faces_eq_ok {edge : Edge} {cell neighbour : Cell} {faces : Bool}
    (computed : edge.faces cell neighbour = .ok faces) :
    faces = decide ((edge.cell, edge.beyond) ∈ [(cell, neighbour)]) := by
  rw [Edge.faces] at computed
  split at computed
  · next own =>
      rcases bind_eq_ok.mp computed with ⟨across, found, made⟩
      rw [pure_eq_ok, Except.ok.injEq, across_eq_ok found] at made
      simp [← made, own]
  · next other =>
      rw [pure_eq_ok, Except.ok.injEq] at computed
      simp [← computed, other]

end Edge

namespace Patch

def stitchedIn (contacts : List (Cell × Cell)) (patch : Patch) : Patch :=
  { patch with edges := patch.edges.map (Edge.stitchedIn contacts) }

theorem stitchedIn_stitchedIn (contacts more : List (Cell × Cell)) (patch : Patch) :
    (patch.stitchedIn contacts).stitchedIn more = patch.stitchedIn (contacts ++ more) := by
  simp only [stitchedIn, List.map_map, Function.comp_def, Edge.stitchedIn_stitchedIn]

theorem stitchedIn_eq_self {contacts : List (Cell × Cell)} {patch : Patch}
    (apart : ∀ edge ∈ patch.edges, (edge.cell, edge.beyond) ∉ contacts) :
    patch.stitchedIn contacts = patch := by
  have edges : patch.edges.map (Edge.stitchedIn contacts) = patch.edges := by
    rw [List.map_congr_left, List.map_id]
    intro edge member
    rw [Edge.stitchedIn, if_neg (apart edge member)]
    rfl
  rw [stitchedIn, edges]

/-- Contacts of cells that do not belong to a patch leave it as it is. -/
theorem Plain.stitchedIn_append {patch : Patch} (plain : patch.Plain) {cell : Cell}
    (elsewhere : ¬ patch.covers cell = true) (contacts : List (Cell × Cell)) (towards : Cell) :
    patch.stitchedIn (contacts ++ [(cell, towards)]) = patch.stitchedIn contacts := by
  rw [← stitchedIn_stitchedIn]
  apply stitchedIn_eq_self
  intro edge member
  rcases List.mem_map.mp member with ⟨original, originalMember, rfl⟩
  simp only [Edge.cell_stitchedIn, List.mem_singleton, Prod.mk.injEq, not_and]
  intro same
  have own := plain.own original originalMember
  exact absurd (List.contains_iff_mem.mpr (same ▸ own)) elsewhere

theorem touched_stitchedIn (contacts : List (Cell × Cell)) (patch : Patch) :
    Touched patch (patch.stitchedIn contacts) := by
  refine ⟨rfl, rfl, fun _ => ?_⟩
  simp only [unstitched, stitchedIn, List.map_map, Function.comp_def, Edge.unstitch_stitchedIn]

theorem stitchTowards_eq_ok {patch stitched : Patch} {cell neighbour : Cell} {changed : Bool}
    (computed : patch.stitchTowards cell neighbour = .ok (stitched, changed)) :
    stitched = patch.stitchedIn [(cell, neighbour)] := by
  rw [stitchTowards, bind_eq_ok] at computed
  rcases computed with ⟨facing, faced, made⟩
  rw [pure_eq_ok, Except.ok.injEq, Prod.mk.injEq] at made
  have edges : patch.edges.zipWith (fun edge faces => if faces then edge.stitch else edge) facing =
      patch.edges.map (Edge.stitchedIn [(cell, neighbour)]) := by
    clear made
    have each := mapM_eq_ok.mp faced
    clear faced
    generalize patch.edges = all at each
    induction each with
    | nil => rfl
    | cons faces _ induction =>
        rw [List.zipWith_cons_cons, List.map_cons, induction, Edge.faces_eq_ok faces,
          Edge.stitchedIn]
        simp only [decide_eq_true_eq]
  rw [← made.1, edges]
  rfl

/-! ## Ancilla patches -/

/-- An ancilla patch on a cell with a join for each contact of the cell. -/
structure IsAncilla (contacts : List (Cell × Cell)) (cell : Cell) (patch : Patch) : Prop where
  role : patch.role = .ancilla
  cells : patch.cells = [cell]
  mem_edges : ∀ edge, edge ∈ patch.edges ↔
    edge.cell = cell ∧ edge.border = .join ∧ (cell, edge.beyond) ∈ contacts

namespace IsAncilla

variable {contacts : List (Cell × Cell)} {cell : Cell} {patch : Patch}

theorem covers_iff (isAncilla : IsAncilla contacts cell patch) {other : Cell} :
    patch.covers other = true ↔ other = cell := by
  simp [covers, isAncilla.cells]

/-- Contacts of other cells add nothing. -/
theorem append (isAncilla : IsAncilla contacts cell patch) {more : List (Cell × Cell)}
    (elsewhere : ∀ pair ∈ more, pair.1 ≠ cell) : IsAncilla (contacts ++ more) cell patch := by
  refine ⟨isAncilla.role, isAncilla.cells, fun edge => ?_⟩
  have none : (cell, edge.beyond) ∉ more := fun member => elsewhere _ member rfl
  rw [isAncilla.mem_edges, List.mem_append, or_iff_left none]

/-- Joining an ancilla patch to a neighbour makes one more contact. -/
theorem joinTowards (isAncilla : IsAncilla contacts cell patch) {side : Side} {joined : Patch}
    {changed : Bool}
    (computed : patch.joinTowards cell (cell.shift side) = .ok (joined, changed)) :
    IsAncilla (contacts ++ [(cell, cell.shift side)]) cell joined := by
  rw [Patch.joinTowards, if_pos ⟨isAncilla.role, isAncilla.covers_iff.mpr rfl⟩] at computed
  rcases bind_eq_ok.mp computed with ⟨found, towards, computed⟩
  rw [Cell.sideTowards_eq_ok towards] at computed
  have contact (edge : Edge) (own : edge.cell = cell) :
      (cell, edge.beyond) ∈ contacts ++ [(cell, cell.shift side)] ↔
        (cell, edge.beyond) ∈ contacts ∨ edge.side = side := by
    rw [List.mem_append, List.mem_singleton, Prod.mk.injEq, Edge.beyond, own,
      cell.shift_injective.eq_iff]
    simp
  simp only at computed
  split at computed
  · next already =>
      rw [pure_eq_ok, Except.ok.injEq, Prod.mk.injEq] at computed
      rw [← computed.1]
      simp only [List.any_eq_true, decide_eq_true_eq] at already
      rcases already with ⟨present, presentMember, own, same⟩
      have touches := ((isAncilla.mem_edges present).mp presentMember).2.2
      refine ⟨isAncilla.role, isAncilla.cells, fun edge => ?_⟩
      rw [isAncilla.mem_edges]
      refine and_congr_right fun edgeOwn => and_congr_right fun _ => ?_
      rw [contact edge edgeOwn, iff_self_or]
      intro edgeSame
      rw [Edge.beyond, own, same] at touches
      rwa [Edge.beyond, edgeOwn, edgeSame]
  · rw [pure_eq_ok, Except.ok.injEq, Prod.mk.injEq] at computed
    rw [← computed.1]
    refine ⟨isAncilla.role, isAncilla.cells, fun edge => ?_⟩
    rw [withEdge, List.mem_append, isAncilla.mem_edges, List.mem_singleton]
    constructor
    · intro either
      cases either with
      | inl old => exact ⟨old.1, old.2.1, List.mem_append_left _ old.2.2⟩
      | inr new =>
          subst new
          exact ⟨rfl, rfl, (contact _ rfl).mpr (.inr rfl)⟩
    · intro holds
      rcases holds with ⟨own, isJoin, touches⟩
      cases (contact edge own).mp touches with
      | inl old => exact .inl ⟨own, isJoin, old⟩
      | inr same =>
          rcases edge with ⟨edgeCell, edgeSide, border⟩
          exact .inr (by simp_all)

theorem flatMap_cells {cells : List Cell} {patches : List Patch}
    (areAncillas : List.Forall₂ (IsAncilla contacts) cells patches) :
    patches.flatMap Patch.cells = cells := by
  induction areAncillas with
  | nil => rfl
  | cons isAncilla _ induction =>
      rw [List.flatMap_cons, isAncilla.cells, induction]
      rfl

end IsAncilla

end Patch

/-! ## Changes of single patches -/

private theorem modify_eq_map {α : Type} {test : α → Bool} {change : α → α} {values : List α}
    {index : Nat} {value next : α} (found : values.findIdx? test = some index)
    (located : values[index]? = some value) (made : change value = next)
    (once : values.Pairwise fun first second => ¬ (test first = true ∧ test second = true)) :
    values.modify index (fun _ => next) =
      values.map fun value => if test value then change value else value := by
  induction values generalizing index with
  | nil => cases located
  | cons first rest induction =>
      rcases List.pairwise_cons.mp once with ⟨onlyFirst, once⟩
      rw [List.findIdx?_cons] at found
      split at found
      · next here =>
          cases found
          rw [List.getElem?_cons_zero, Option.some.injEq] at located
          have others :
              rest.map (fun value => if test value then change value else value) = rest := by
            rw [List.map_congr_left, List.map_id]
            intro other member
            rw [if_neg fun tested => onlyFirst other member ⟨here, tested⟩]
            rfl
          rw [List.modify_zero_cons, List.map_cons, others, if_pos here, located, made]
      · next elsewhere =>
          rw [Option.map_eq_some_iff] at found
          rcases found with ⟨later, found, rfl⟩
          rw [List.getElem?_cons_succ] at located
          rw [List.modify_succ_cons, List.map_cons, if_neg elsewhere, induction found located once]

/-- A change of the patch on a cell. -/
theorem Lattice.Apart.modify_patches {lattice : Lattice} (apart : lattice.Apart) {cell : Cell}
    {index : Nat} {patch next : Patch} {change : Patch → Patch}
    (found : lattice.indexAt? cell = some index) (looked : lattice.patchAt? cell = some patch)
    (made : change patch = next) :
    (lattice.modify index fun _ => next).patches =
      lattice.patches.map fun patch => if patch.covers cell then change patch else patch := by
  rcases Route.getElem?_of_indexAt? found with ⟨other, otherLooked, located⟩
  rw [looked, Option.some.injEq] at otherLooked
  rw [← otherLooked] at located
  apply modify_eq_map found located made
  apply apart.imp
  intro first second separate both
  simp only [Patch.covers, List.contains_iff_mem] at both
  exact separate both.1 both.2

namespace Route

variable {lattice next : Lattice} {cell towards : Cell}

theorem run_stitch_eq_ok (performed : (stitch cell towards).run lattice = .ok () next) :
    ∃ index patch stitched changed, lattice.indexAt? cell = some index ∧
      lattice.patchAt? cell = some patch ∧
      patch.stitchTowards cell towards = .ok (stitched, changed) ∧
      next = lattice.modify index fun _ => stitched := by
  rw [stitch, run_bind_eq_ok] at performed
  rcases performed with ⟨_, _, got, performed⟩
  cases got
  split at performed
  · next index patch found looked =>
      rcases run_bind_eq_ok.mp performed with ⟨⟨stitched, changed⟩, between, lifted, performed⟩
      cases computed : patch.stitchTowards cell towards with
      | error fault =>
          rw [computed] at lifted
          cases lifted
      | ok value =>
          rw [computed] at lifted
          cases lifted
          cases performed
          exact ⟨index, patch, stitched, changed, found, looked, computed, rfl⟩
  · cases performed

theorem run_place_eq_ok {ancillas placed : List Cell}
    (performed : (place ancillas cell).run lattice = .ok placed next) :
    lattice.isFree cell = false ∧ placed = ancillas ∧ next = lattice ∨
      lattice.isFree cell = true ∧ placed = ancillas ++ [cell] ∧
        next = { lattice with patches := lattice.patches ++ [Patch.ancilla cell] } := by
  rw [place, run_bind_eq_ok] at performed
  rcases performed with ⟨_, _, got, performed⟩
  cases got
  split at performed
  · next index found =>
      cases performed
      left
      refine ⟨?_, rfl, rfl⟩
      rw [← Bool.not_eq_true, ← indexAt?_eq_none_iff, found]
      exact Option.some_ne_none index
  · next found =>
      have free := indexAt?_eq_none_iff.mp found
      have allFree : ∀ covered ∈ (Patch.ancilla cell).cells, lattice.isFree covered = true :=
        List.forall_mem_singleton.mpr free
      rw [Lattice.add_eq_ok allFree] at performed
      cases performed
      exact .inr ⟨free, rfl, rfl⟩

theorem run_join_eq_ok (performed : (join cell towards).run lattice = .ok () next)
    (covered : cell ∈ lattice.cells) :
    ∃ index patch joined changed, lattice.indexAt? cell = some index ∧
      lattice.patchAt? cell = some patch ∧
      patch.joinTowards cell towards = .ok (joined, changed) ∧
      next = lattice.modify index fun _ => joined := by
  cases found : lattice.indexAt? cell with
  | none => exact absurd covered (Lattice.isFree_iff.mp (indexAt?_eq_none_iff.mp found))
  | some index =>
      rcases getElem?_of_indexAt? found with ⟨patch, looked, _⟩
      rw [join, run_bind_eq_ok] at performed
      rcases performed with ⟨_, _, got, performed⟩
      cases got
      simp only [found, looked] at performed
      rcases run_bind_eq_ok.mp performed with ⟨⟨joined, changed⟩, between, lifted, performed⟩
      cases computed : patch.joinTowards cell towards with
      | error fault =>
          rw [computed] at lifted
          cases lifted
      | ok value =>
          rw [computed] at lifted
          cases lifted
          cases performed
          exact ⟨index, patch, joined, changed, rfl, looked, computed, rfl⟩

/-! ## Contacts along a path -/

/-- The cells between the ends of a path. -/
def inner (path : List Cell) : List Cell := path.tail.dropLast

/-- The contacts of the cells between the ends of a path. -/
def joinsAlong : List Cell → List (Cell × Cell)
  | before :: cell :: next :: rest =>
      (cell, next) :: (cell, before) :: joinsAlong (cell :: next :: rest)
  | _ => []

theorem mem_inner_of_mem_joinsAlong {path : List Cell} {pair : Cell × Cell}
    (member : pair ∈ joinsAlong path) : pair.1 ∈ inner path := by
  induction path with
  | nil => cases member
  | cons before rest induction =>
      match rest with
      | [] | [_] => cases member
      | cell :: next :: rest =>
          simp only [joinsAlong, List.mem_cons] at member
          rcases member with rfl | rfl | later
          · exact List.mem_cons_self
          · exact List.mem_cons_self
          · exact List.mem_cons_of_mem _ (induction later)

/-- With the contacts of its ends, every step of a path is a contact in both directions. -/
theorem mem_joinsAlong {first second previous last : Cell} {rest others : List Cell}
    (split : first :: second :: rest = others ++ [previous, last]) (cell other : Cell) :
    (cell, other) ∈ (first, second) :: (last, previous) :: joinsAlong (first :: second :: rest) ↔
      (cell, other) ∈ (first :: second :: rest).zip (second :: rest) ∨
        (other, cell) ∈ (first :: second :: rest).zip (second :: rest) := by
  induction rest generalizing first second others with
  | nil =>
      cases others with
      | nil =>
          cases split
          simp [joinsAlong, and_comm]
      | cons _ others =>
          have lengths := congrArg List.length split
          simp at lengths
  | cons third rest induction =>
      cases others with
      | nil => simp at split
      | cons _ others =>
          have later := induction (List.cons.inj split).2
          simp only [joinsAlong, List.zip_cons_cons, List.mem_cons, Prod.mk.injEq] at later ⊢
          grind

namespace Span

@[simp] theorem inner_path (span : Span) : inner span.path = span.middle :=
  List.dropLast_concat

def contacts (span : Span) : List (Cell × Cell) :=
  (span.leaving.cell, span.leaving.beyond) :: (span.entering.cell, span.entering.beyond) ::
    joinsAlong span.path

variable {original : Lattice} {source target : Cell × Pauli} {span : Span}

theorem Connects.contacts_symm (connects : span.Connects original source target) {cell other : Cell}
    (member : (cell, other) ∈ span.contacts) : (other, cell) ∈ span.contacts := by
  rcases connects.path_eq with ⟨rest, forward⟩
  rcases connects.exists_path_eq_append with ⟨others, backward⟩
  have both := mem_joinsAlong (forward.symm.trans backward)
  rw [contacts, forward, both] at member ⊢
  exact member.symm

end Span

/-! ## Lattices with contacts -/

/-- The original lattice with contacts made and ancilla patches on the given cells. -/
structure Merged (original : Lattice) (contacts : List (Cell × Cell)) (ancillas : List Cell)
    (lattice : Lattice) : Prop where
  leastRows : lattice.leastRows = original.leastRows
  leastCols : lattice.leastCols = original.leastCols
  patches : ∃ laid, lattice.patches = original.patches.map (Patch.stitchedIn contacts) ++ laid ∧
    List.Forall₂ (Patch.IsAncilla contacts) ancillas laid
  distinct : ancillas.Nodup
  free : ∀ cell ∈ ancillas, original.isFree cell = true
  known : ∀ pair ∈ contacts, pair.1 ∈ original.cells ∨ pair.1 ∈ ancillas

namespace Merged

variable {original : Lattice} {contacts : List (Cell × Cell)} {ancillas : List Cell}

theorem refl (original : Lattice) : Merged original [] [] original where
  leastRows := rfl
  leastCols := rfl
  patches := by
    refine ⟨[], ?_, .nil⟩
    have unchanged : original.patches.map (Patch.stitchedIn []) = original.patches := by
      rw [List.map_congr_left, List.map_id]
      exact fun patch _ => Patch.stitchedIn_eq_self fun _ _ => List.not_mem_nil
    rw [unchanged, List.append_nil]
  distinct := List.nodup_nil
  free := nofun
  known := nofun

theorem laid (merged : Merged original contacts ancillas lattice) : Laid original lattice := by
  rcases merged.patches with ⟨laid, split, areAncillas⟩
  refine ⟨merged.leastRows, merged.leastCols, _, laid, split, ?_, ?_⟩
  · rw [List.forall₂_map_right_iff]
    exact List.forall₂_same.mpr fun patch _ => patch.touched_stitchedIn contacts
  · intro patch member
    rcases exists_of_mem_right areAncillas member with ⟨cell, _, isAncilla⟩
    exact ⟨isAncilla.role, cell, isAncilla.cells⟩

theorem mem_cells (merged : Merged original contacts ancillas lattice) :
    cell ∈ lattice.cells ↔ cell ∈ original.cells ∨ cell ∈ ancillas := by
  rcases merged.patches with ⟨laid, split, areAncillas⟩
  rw [Lattice.cells, split, List.flatMap_append, Patch.IsAncilla.flatMap_cells areAncillas,
    List.mem_append, List.flatMap_map]
  rfl

theorem isFree_iff (merged : Merged original contacts ancillas lattice) :
    lattice.isFree cell = true ↔ original.isFree cell = true ∧ cell ∉ ancillas := by
  rw [Lattice.isFree_iff, Lattice.isFree_iff, merged.mem_cells, not_or]

/-- Ancilla patches are put on free cells only. -/
theorem apart (merged : Merged original contacts ancillas lattice) (apart : original.Apart) :
    lattice.Apart := by
  rcases merged.patches with ⟨laid, split, areAncillas⟩
  have distinct := merged.distinct
  rw [← Patch.IsAncilla.flatMap_cells areAncillas, List.nodup_flatMap] at distinct
  rw [Lattice.Apart, split, List.pairwise_append]
  refine ⟨List.pairwise_map.mpr apart, distinct.2, ?_⟩
  intro patch member ancilla ancillaMember
  rcases List.mem_map.mp member with ⟨before, beforeMember, rfl⟩
  rcases exists_of_mem_right areAncillas ancillaMember with ⟨covered, coveredMember, isAncilla⟩
  rw [isAncilla.cells, List.disjoint_singleton]
  intro inBefore
  exact Lattice.isFree_iff.mp (merged.free covered coveredMember)
    (List.mem_flatMap.mpr ⟨before, beforeMember, inBefore⟩)

/-! ### Steps -/

variable (plain : original.Plain) (separate : original.Apart)

include plain separate

/-- A contact of a patch that was there stitches the border of the patch. -/
theorem stitch (merged : Merged original contacts ancillas lattice)
    (covered : cell ∈ original.cells)
    (performed : (Route.stitch cell towards).run lattice = .ok () next) :
    Merged original (contacts ++ [(cell, towards)]) ancillas next := by
  rcases run_stitch_eq_ok performed with
    ⟨index, patch, stitched, changed, found, looked, computed, rfl⟩
  rcases merged.patches with ⟨laid, split, areAncillas⟩
  have onAncilla : ∀ ancilla ∈ ancillas, cell ≠ ancilla := by
    intro ancilla member same
    exact Lattice.isFree_iff.mp (merged.free ancilla member) (same ▸ covered)
  refine ⟨merged.leastRows, merged.leastCols, ⟨laid, ?_, ?_⟩, merged.distinct, merged.free, ?_⟩
  · have made := (Patch.stitchTowards_eq_ok computed).symm
    rw [(merged.apart separate).modify_patches found looked made, split, List.map_append,
      List.map_map]
    congr 1
    · apply List.map_congr_left
      intro before member
      rw [Function.comp_apply]
      split
      · exact before.stitchedIn_stitchedIn _ _
      · next elsewhere => exact ((plain before member).stitchedIn_append elsewhere _ _).symm
    · rw [List.map_congr_left, List.map_id]
      intro ancilla member
      rcases exists_of_mem_right areAncillas member with ⟨other, otherMember, isAncilla⟩
      rw [if_neg fun covers => onAncilla other otherMember (isAncilla.covers_iff.mp covers)]
      rfl
  · refine ((List.forall₂_and_left _ _).mpr ⟨onAncilla, areAncillas⟩).imp
      fun ancilla patch facts => ?_
    exact facts.2.append (List.forall_mem_singleton.mpr facts.1)
  · intro pair member
    cases List.mem_append.mp member with
    | inl old => exact merged.known pair old
    | inr new =>
        rw [List.mem_singleton.mp new]
        exact .inl covered

omit plain separate in
/-- An ancilla patch is put on a cell that has none. -/
theorem place (merged : Merged original contacts ancillas lattice)
    (free : original.isFree cell = true) {placed : List Cell}
    (performed : (Route.place ancillas cell).run lattice = .ok placed next) :
    Merged original contacts placed next ∧
      ∀ other, other ∈ placed ↔ other ∈ ancillas ∨ other = cell := by
  cases run_place_eq_ok performed with
  | inl occupied =>
      rcases occupied with ⟨occupied, rfl, rfl⟩
      rw [← Bool.not_eq_true, merged.isFree_iff] at occupied
      have member : cell ∈ placed := by
        by_contra absent
        exact occupied ⟨free, absent⟩
      refine ⟨merged, fun other => ?_⟩
      rw [iff_self_or]
      intro same
      rwa [same]
  | inr vacant =>
      rcases vacant with ⟨vacant, rfl, rfl⟩
      have fresh := (merged.isFree_iff.mp vacant).2
      rcases merged.patches with ⟨laid, split, areAncillas⟩
      have isAncilla : Patch.IsAncilla contacts cell (Patch.ancilla cell) := by
        refine ⟨rfl, rfl, fun edge => ⟨nofun, fun holds => ?_⟩⟩
        cases merged.known _ holds.2.2 with
        | inl covered => exact absurd covered (Lattice.isFree_iff.mp free)
        | inr member => exact absurd member fresh
      refine ⟨⟨merged.leastRows, merged.leastCols, ⟨laid ++ [Patch.ancilla cell], ?_, ?_⟩,
        ?_, ?_, ?_⟩, fun other => ?_⟩
      · rw [split, List.append_assoc]
      · exact List.rel_append areAncillas (.cons isAncilla .nil)
      · rw [List.nodup_append]
        refine ⟨merged.distinct, List.nodup_singleton cell, ?_⟩
        intro other member same isCell
        rw [List.mem_singleton.mp isCell]
        intro isSame
        exact fresh (isSame ▸ member)
      · intro other member
        cases List.mem_append.mp member with
        | inl old => exact merged.free other old
        | inr new => rwa [List.mem_singleton.mp new]
      · intro pair member
        exact (merged.known pair member).imp_right (List.mem_append_left _)
      · rw [List.mem_append, List.mem_singleton]

/-- A contact of an ancilla patch joins it to the cell beside it. -/
theorem join (merged : Merged original contacts ancillas lattice) (member : cell ∈ ancillas)
    {side : Side} (performed : (Route.join cell (cell.shift side)).run lattice = .ok () next) :
    Merged original (contacts ++ [(cell, cell.shift side)]) ancillas next := by
  have covered := merged.mem_cells.mpr (.inr member)
  have free := Lattice.isFree_iff.mp (merged.free cell member)
  rcases run_join_eq_ok performed covered with
    ⟨index, patch, joined, changed, found, looked, computed, rfl⟩
  rcases merged.patches with ⟨laid, split, areAncillas⟩
  have isJoined : Patch.IsAncilla (contacts ++ [(cell, cell.shift side)]) cell joined := by
    rcases exists_of_mem_left areAncillas member with ⟨ancilla, ancillaMember, isAncilla⟩
    have inLattice : ancilla ∈ lattice.patches := by
      rw [split]
      exact List.mem_append_right _ ancillaMember
    have at? := (merged.apart separate).patchAt?_eq_some_iff.mpr
      ⟨inLattice, isAncilla.cells ▸ List.mem_singleton_self cell⟩
    rw [looked, Option.some.injEq] at at?
    rw [at?] at computed
    exact isAncilla.joinTowards computed
  refine ⟨merged.leastRows, merged.leastCols, ⟨laid.map fun patch => if patch.covers cell then
    joined else patch, ?_, ?_⟩, merged.distinct, merged.free, ?_⟩
  · have replaced : (lattice.modify index fun _ => joined).patches =
        lattice.patches.map fun patch => if patch.covers cell then joined else patch :=
      (merged.apart separate).modify_patches found looked rfl
    rw [replaced, split, List.map_append, List.map_map]
    congr 1
    apply List.map_congr_left
    intro before beforeMember
    have elsewhere : ¬ before.covers cell = true := fun covers =>
      free (List.mem_flatMap.mpr ⟨before, beforeMember, List.contains_iff_mem.mp covers⟩)
    rw [Function.comp_apply, (plain before beforeMember).stitchedIn_append elsewhere]
    exact if_neg elsewhere
  · rw [List.forall₂_map_right_iff]
    refine areAncillas.imp fun other patch isAncilla => ?_
    split
    · next covers => exact isAncilla.covers_iff.mp covers ▸ isJoined
    · next elsewhere =>
        refine isAncilla.append (List.forall_mem_singleton.mpr fun same => elsewhere ?_)
        exact isAncilla.covers_iff.mpr same
  · intro pair pairMember
    cases List.mem_append.mp pairMember with
    | inl old => exact merged.known pair old
    | inr new =>
        rw [List.mem_singleton.mp new]
        exact .inr member

/-! ### Paths -/

theorem layInterior (merged : Merged original contacts ancillas lattice) {path : List Cell}
    (beside : path.IsChain Cell.Beside) (free : ∀ cell ∈ inner path, original.isFree cell = true)
    {placed : List Cell}
    (performed : (Route.layInterior ancillas path).run lattice = .ok placed next) :
    Merged original (contacts ++ joinsAlong path) placed next ∧
      ∀ other, other ∈ placed ↔ other ∈ ancillas ∨ other ∈ inner path := by
  induction path generalizing contacts ancillas lattice with
  | nil =>
      cases performed
      simpa [joinsAlong, inner] using merged
  | cons before rest induction =>
      cases rest with
      | nil =>
          cases performed
          simpa [joinsAlong, inner] using merged
      | cons cell rest =>
          cases rest with
          | nil =>
              cases performed
              simpa [joinsAlong, inner] using merged
          | cons after rest =>
              rcases List.isChain_cons_cons.mp beside with ⟨beforeBeside, chain⟩
              rcases (List.isChain_cons_cons.mp chain).1 with ⟨side, isAfter⟩
              rcases beforeBeside.symm with ⟨back, isBefore⟩
              simp only [Route.layInterior, run_bind_eq_ok] at performed
              rcases performed with
                ⟨some, first, placing, _, second, joiningAfter, _, third, joiningBefore, laying⟩
              rcases List.forall_mem_cons.mp free with ⟨cellFree, restFree⟩
              rcases merged.place cellFree placing with ⟨firstMerged, memSome⟩
              have member := (memSome cell).mpr (.inr rfl)
              rw [isAfter] at joiningAfter
              rw [isBefore] at joiningBefore
              have thirdMerged := (firstMerged.join plain separate member joiningAfter).join plain
                separate member joiningBefore
              rw [← isAfter, ← isBefore] at thirdMerged
              rcases induction thirdMerged chain restFree laying with ⟨nextMerged, memPlaced⟩
              rw [List.append_assoc, List.append_assoc] at nextMerged
              refine ⟨nextMerged, fun other => ?_⟩
              rw [memPlaced, memSome, or_assoc]
              exact or_congr_right List.mem_cons.symm

/-- Laying a span makes its contacts. -/
theorem layPath {region final : Region}
    (merged : Merged original contacts region.ancillas lattice) {source target : Cell × Pauli}
    {span : Span} (connects : span.Connects original source target) {whole : List Cell}
    (trimEq : trim lattice whole = span.path)
    (performed : (Route.layPath region whole).run lattice = .ok final next) :
    Merged original (contacts ++ span.contacts) final.ancillas next ∧
      final.paths = region.paths ++ [span.path] ∧
      ∀ other, other ∈ final.ancillas ↔ other ∈ region.ancillas ∨ other ∈ span.middle := by
  rcases connects.path_eq with ⟨rest, forward⟩
  rcases connects.exists_path_eq_append with ⟨others, split⟩
  have backward : span.path.reverse =
      span.entering.cell :: span.entering.beyond :: others.reverse := by
    rw [split, List.reverse_append]
    rfl
  rw [run_layPath trimEq forward backward] at performed
  simp only [run_bind_eq_ok] at performed
  rcases performed with ⟨_, first, leaving, _, second, entering, placed, third, laying, made⟩
  cases made
  have firstMerged := merged.stitch plain separate (connects.leaving.mem_cells plain) leaving
  have secondMerged :=
    firstMerged.stitch plain separate (connects.entering.mem_cells plain) entering
  have free : ∀ cell ∈ inner span.path, original.isFree cell = true := by
    rw [span.inner_path]
    exact fun cell member => (connects.isOpen cell member).2
  rcases secondMerged.layInterior plain separate connects.beside free laying with
    ⟨thirdMerged, memPlaced⟩
  rw [List.append_assoc, List.append_assoc] at thirdMerged
  rw [span.inner_path] at memPlaced
  exact ⟨thirdMerged, rfl, memPlaced⟩

/-- Laying spans makes the contacts of all of them. -/
theorem layPaths {region final : Region}
    (merged : Merged original contacts region.ancillas lattice) {source : Cell × Pauli}
    {routes : List ((Cell × Pauli) × Span)}
    (connects : ∀ route ∈ routes, route.2.Connects original source route.1)
    {paths : List (List Cell)}
    (trims : List.Forall₂ (fun path route => ∀ between, Laid original between →
      trim between path = route.2.path) paths routes)
    (performed : (paths.foldlM Route.layPath region).run lattice = .ok final next) :
    Merged original (contacts ++ routes.flatMap fun route => route.2.contacts) final.ancillas next ∧
      final.paths = region.paths ++ (routes.map fun route => route.2.path) ∧
      ∀ other, other ∈ final.ancillas ↔
        other ∈ region.ancillas ∨ ∃ route ∈ routes, other ∈ route.2.middle := by
  induction trims generalizing contacts region lattice with
  | nil =>
      cases performed
      simpa using merged
  | cons trimmed _ induction =>
      rcases List.forall_mem_cons.mp connects with ⟨connected, connects⟩
      rw [List.foldlM_cons, run_bind_eq_ok] at performed
      rcases performed with ⟨between, middle, laying, performed⟩
      rcases merged.layPath plain separate connected (trimmed lattice merged.laid) laying with
        ⟨middleMerged, middlePaths, memMiddle⟩
      rcases induction middleMerged connects performed with ⟨finalMerged, finalPaths, memFinal⟩
      rw [List.append_assoc] at finalMerged
      refine ⟨finalMerged, ?_, fun other => ?_⟩
      · rw [finalPaths, middlePaths, List.append_assoc]
        rfl
      · rw [memFinal, memMiddle, or_assoc, List.exists_mem_cons_iff]

end Merged

end Route

end LatticeSurgery
