import LatticeSurgery.Proofs.Route.Links

namespace LatticeSurgery

open Result

/-! # Laying merge regions

A merge stitches borders of the patches that were there and adds ancilla patches behind
them. The patches keep their cells, so a path that has been found can be laid whatever the
paths before it have changed. -/

theorem Edge.unstitch_stitch (edge : Edge) : edge.stitch.unstitch = edge.unstitch := by
  rcases edge with ⟨cell, side, border⟩
  cases border <;> rfl

namespace Patch

/-- The patch with all its borders as they are outside of a merge. -/
def unstitched (patch : Patch) : Patch := { patch with edges := patch.edges.map Edge.unstitch }

theorem unstitched_eq_self {patch : Patch}
    (plain : ∀ edge ∈ patch.edges, edge.border.isStitched = false) : patch.unstitched = patch := by
  have edges : patch.edges.map Edge.unstitch = patch.edges := by
    rw [List.map_congr_left, List.map_id]
    intro edge member
    have isPlain := plain edge member
    rcases edge with ⟨cell, side, border⟩
    cases border <;> simp_all [Edge.unstitch, Border.unstitched, Border.isStitched]
  rw [unstitched, edges]

private theorem map_unstitch_zipWith (edges : List Edge) (facing : List Bool)
    (sameLength : edges.length = facing.length) :
    (edges.zipWith (fun edge faces => if faces then edge.stitch else edge) facing).map
      Edge.unstitch = edges.map Edge.unstitch := by
  apply List.ext_getElem
  · simp [sameLength]
  · intro position _ _
    rw [List.getElem_map, List.getElem_zipWith, List.getElem_map]
    split
    · exact Edge.unstitch_stitch _
    · rfl

/-- What a merge may change of a patch that was there: borders are stitched, and ancilla
patches are joined. -/
structure Touched (before after : Patch) : Prop where
  role : after.role = before.role
  cells : after.cells = before.cells
  unstitched : before.role ≠ .ancilla → after.unstitched = before.unstitched

namespace Touched

theorem refl (patch : Patch) : Touched patch patch := ⟨rfl, rfl, fun _ => rfl⟩

theorem trans {first second third : Patch} (before : Touched first second)
    (after : Touched second third) : Touched first third where
  role := after.role.trans before.role
  cells := after.cells.trans before.cells
  unstitched notAncilla :=
    (after.unstitched (before.role ▸ notAncilla)).trans (before.unstitched notAncilla)

/-- Patches that are no ancilla patches are the same outside of the merge. -/
theorem map_unstitched {before after : List Patch} (touched : List.Forall₂ Touched before after)
    (noAncilla : ∀ patch ∈ before, patch.role ≠ .ancilla) :
    after.map Patch.unstitched = before.map Patch.unstitched := by
  induction touched with
  | nil => rfl
  | cons change _ induction =>
      rcases List.forall_mem_cons.mp noAncilla with ⟨notAncilla, noAncilla⟩
      rw [List.map_cons, List.map_cons, change.unstitched notAncilla, induction noAncilla]

end Touched

theorem touched_of_stitchTowards {patch stitched : Patch} {cell neighbour : Cell} {changed : Bool}
    (computed : patch.stitchTowards cell neighbour = .ok (stitched, changed)) :
    Touched patch stitched := by
  rw [stitchTowards, bind_eq_ok] at computed
  rcases computed with ⟨facing, faced, made⟩
  rw [pure_eq_ok, Except.ok.injEq, Prod.mk.injEq] at made
  have sameLength := (mapM_eq_ok.mp faced).length_eq
  rw [← made.1]
  refine ⟨rfl, rfl, fun _ => ?_⟩
  simp only [unstitched, map_unstitch_zipWith patch.edges facing sameLength]

theorem touched_of_joinTowards {patch joined : Patch} {cell neighbour : Cell} {changed : Bool}
    (computed : patch.joinTowards cell neighbour = .ok (joined, changed)) :
    Touched patch joined := by
  rw [joinTowards] at computed
  split at computed
  · next isAncilla =>
      rcases bind_eq_ok.mp computed with ⟨side, _, computed⟩
      have made : joined = patch ∨ ∃ edge, joined = patch.withEdge edge := by
        split at computed
        · exact .inl (Prod.mk.inj (Except.ok.inj computed)).1.symm
        · split at computed
          · exact .inl (Prod.mk.inj (Except.ok.inj computed)).1.symm
          · exact .inr ⟨_, (Prod.mk.inj (Except.ok.inj computed)).1.symm⟩
      cases made with
      | inl same => exact same ▸ .refl patch
      | inr added =>
          rcases added with ⟨edge, rfl⟩
          exact ⟨rfl, rfl, fun notAncilla => absurd isAncilla.1 notAncilla⟩
  · exact (Prod.mk.inj (Except.ok.inj computed)).1 ▸ .refl patch

/-- Stitching meets no fault on a cell with words for its neighbours. -/
theorem exists_stitchTowards {patch : Patch} {cell : Cell} (within : cell.Within)
    (neighbour : Cell) : ∃ stitched, patch.stitchTowards cell neighbour = .ok stitched := by
  have each : ∀ edge ∈ patch.edges, ∃ faces, edge.faces cell neighbour = .ok faces := by
    intro edge _
    rw [Edge.faces]
    by_cases own : edge.cell = cell
    · rw [if_pos own, Edge.across, own, within.neighbour]
      exact ⟨_, rfl⟩
    · rw [if_neg own]
      exact ⟨_, rfl⟩
  rcases exists_mapM_of_forall each with ⟨facing, faced⟩
  rw [stitchTowards, faced]
  exact ⟨_, rfl⟩

theorem exists_joinTowards {patch : Patch} {cell neighbour : Cell} (roomy : cell.Roomy)
    (neighbourRoomy : neighbour.Roomy) :
    ∃ joined, patch.joinTowards cell neighbour = .ok joined := by
  rcases roomy.sideTowards neighbourRoomy with ⟨side, towards⟩
  rw [joinTowards, towards, ok_bind]
  split
  · cases side with
    | none => exact ⟨_, rfl⟩
    | some side =>
        simp only
        split
        · exact ⟨_, rfl⟩
        · exact ⟨_, rfl⟩
  · exact ⟨_, rfl⟩

end Patch

namespace Route

/-! ## Lattices with part of a merge region -/

/-- A lattice with part of a merge region laid on it. -/
structure Laid (original lattice : Lattice) : Prop where
  leastRows : lattice.leastRows = original.leastRows
  leastCols : lattice.leastCols = original.leastCols
  patches : ∃ touched laid, lattice.patches = touched ++ laid ∧
    List.Forall₂ Patch.Touched original.patches touched ∧
    ∀ patch ∈ laid, patch.role = .ancilla ∧ ∃ cell, patch.cells = [cell]

namespace Laid

variable {original lattice : Lattice}

theorem refl (original : Lattice) : Laid original original :=
  ⟨rfl, rfl, original.patches, [], (List.append_nil _).symm,
    List.forall₂_same.mpr fun patch _ => .refl patch, nofun⟩

/-- Ancilla patches are added behind all others. -/
theorem exists_add (laid : Laid original lattice) {cell : Cell}
    (free : lattice.isFree cell = true) :
    ∃ placed, lattice.add (Patch.ancilla cell) = .ok placed ∧ Laid original placed := by
  have allFree : ∀ covered ∈ (Patch.ancilla cell).cells, lattice.isFree covered = true :=
    List.forall_mem_singleton.mpr free
  rcases laid.patches with ⟨touched, ancillas, split, same, areAncillas⟩
  refine ⟨_, Lattice.add_eq_ok allFree, laid.leastRows, laid.leastCols, touched,
    ancillas ++ [Patch.ancilla cell], ?_, same, ?_⟩
  · rw [split, List.append_assoc]
  · intro patch member
    cases List.mem_append.mp member with
    | inl member => exact areAncillas patch member
    | inr member =>
        rw [List.mem_singleton.mp member]
        exact ⟨rfl, cell, rfl⟩

theorem modify (laid : Laid original lattice) {index : Nat} {before after : Patch}
    (found : lattice.patches[index]? = some before) (change : Patch.Touched before after) :
    Laid original (lattice.modify index fun _ => after) := by
  rcases laid.patches with ⟨touched, ancillas, split, same, areAncillas⟩
  have replaced : (lattice.modify index fun _ => after).patches =
      (touched ++ ancillas).set index after := by
    rw [Lattice.modify, split, List.set_eq_modify]
  rw [split] at found
  by_cases inTouched : index < touched.length
  · rw [List.getElem?_append_left inTouched] at found
    refine ⟨laid.leastRows, laid.leastCols, touched.set index after, ancillas, ?_, ?_, areAncillas⟩
    · rw [replaced, List.set_append_left _ _ inTouched]
    · rw [List.forall₂_iff_get]
      refine ⟨by rw [List.length_set, same.length_eq], ?_⟩
      intro position inside _
      have related := (List.forall₂_iff_get.mp same).2 position inside (same.length_eq ▸ inside)
      rw [List.get_eq_getElem, List.get_eq_getElem, List.getElem_set]
      split
      · next here =>
          subst here
          have located : touched.get ⟨index, inTouched⟩ = before := by
            rw [List.getElem?_eq_getElem inTouched, Option.some.injEq] at found
            exact found
          rw [located] at related
          exact related.trans change
      · exact related
  · rw [List.getElem?_append_right (Nat.le_of_not_lt inTouched)] at found
    have wasAncilla := areAncillas before (List.mem_of_getElem? found)
    refine ⟨laid.leastRows, laid.leastCols, touched,
      ancillas.set (index - touched.length) after, ?_, same, ?_⟩
    · rw [replaced, List.set_append_right _ _ (Nat.le_of_not_lt inTouched)]
    · intro patch member
      cases List.mem_or_eq_of_mem_set member with
      | inl member => exact areAncillas patch member
      | inr isAfter =>
          rw [isAfter, change.role, change.cells]
          exact wasAncilla

private theorem map_cells_find? {before after : List Patch}
    (touched : List.Forall₂ Patch.Touched before after) (cell : Cell) :
    (after.find? fun patch => patch.covers cell).map Patch.cells =
      (before.find? fun patch => patch.covers cell).map Patch.cells := by
  induction touched with
  | nil => rfl
  | cons change _ induction =>
      rw [List.find?_cons, List.find?_cons, Patch.covers, Patch.covers, change.cells]
      split
      · rw [Option.map_some, Option.map_some, change.cells]
      · exact induction

/-- The first patch on a cell has the cells that it had, or it is an ancilla patch on a cell
that was free. -/
theorem cells_of_patchAt? (laid : Laid original lattice) (cell : Cell) :
    (lattice.patchAt? cell).map Patch.cells = (original.patchAt? cell).map Patch.cells ∨
      original.isFree cell = true ∧ (lattice.patchAt? cell).map Patch.cells = some [cell] := by
  rcases laid.patches with ⟨touched, ancillas, split, same, areAncillas⟩
  have before := map_cells_find? same cell
  rw [Lattice.patchAt?, split, List.find?_append]
  cases found : touched.find? fun patch => patch.covers cell with
  | some patch =>
      left
      rw [Option.some_or, ← found]
      exact before
  | none =>
      rw [found, Option.map_none, eq_comm, Option.map_eq_none_iff] at before
      have free : original.isFree cell = true := by
        rw [Lattice.isFree, Lattice.patchAt?, before]
        rfl
      rw [Option.none_or]
      cases laidFound : ancillas.find? fun patch => patch.covers cell with
      | none =>
          left
          rw [Lattice.patchAt?, before]
      | some patch =>
          right
          rcases (areAncillas patch (List.mem_of_find?_eq_some laidFound)).2 with ⟨only, cells⟩
          have covered := List.find?_some laidFound
          simp only [Patch.covers, cells, List.contains_iff_mem, List.mem_singleton] at covered
          exact ⟨free, by rw [Option.map_some, cells, covered]⟩

theorem mem_cells (laid : Laid original lattice) {cell : Cell} (member : cell ∈ original.cells) :
    cell ∈ lattice.cells := by
  have covered : original.isFree cell = false := by
    rw [← Bool.not_eq_true, Lattice.isFree_iff, not_not]
    exact member
  cases laid.cells_of_patchAt? cell with
  | inr wasFree => exact absurd wasFree.1 (by rw [covered]; exact Bool.false_ne_true)
  | inl same =>
      rw [Lattice.isFree] at covered
      cases found : lattice.patchAt? cell with
      | some patch => exact Lattice.mem_cells_of_patchAt? found
      | none =>
          rw [found, Option.map_none, eq_comm, Option.map_eq_none_iff] at same
          rw [same] at covered
          cases covered

/-- A merge changes nothing about which cells a patch that was there represents. -/
theorem representative?_eq_some_iff (laid : Laid original lattice) {source : Cell}
    (covered : source ∈ original.cells) (cell : Cell) :
    lattice.representative? cell = some source ↔ original.representative? cell = some source := by
  have byCells (some : Lattice) : some.representative? cell =
      ((some.patchAt? cell).map Patch.cells).bind List.head? := by
    rw [Lattice.representative?, Option.bind_map]
    rfl
  rw [byCells, byCells]
  cases laid.cells_of_patchAt? cell with
  | inl same => rw [same]
  | inr wasFree =>
      have none : original.patchAt? cell = none := by
        simpa [Lattice.isFree] using wasFree.1
      rw [wasFree.2, none, Option.bind_some, List.head?_cons, Option.some.injEq]
      constructor
      · intro same
        rw [← same] at covered
        exact absurd covered (Lattice.isFree_iff.mp wasFree.1)
      · intro same
        simp at same

end Laid

/-! ## Steps of laying -/

variable {original lattice : Lattice}

theorem indexAt?_eq_none_iff {cell : Cell} :
    lattice.indexAt? cell = none ↔ lattice.isFree cell = true := by
  simp [Lattice.indexAt?, Lattice.isFree, Lattice.patchAt?]

theorem getElem?_of_indexAt? {cell : Cell} {index : Nat}
    (found : lattice.indexAt? cell = some index) :
    ∃ patch, lattice.patchAt? cell = some patch ∧ lattice.patches[index]? = some patch := by
  have inside : index < lattice.patches.length :=
    (List.findIdx?_eq_some_iff_getElem.mp found).1
  have looked : lattice.patchAt? cell = lattice.patches[index]? := by
    rw [Lattice.patchAt?, List.find?_eq_bind_findIdx?_getElem?]
    rw [Lattice.indexAt?] at found
    rw [found]
    rfl
  rw [looked, List.getElem?_eq_getElem inside]
  exact ⟨_, rfl, rfl⟩

theorem exists_stitch (laid : Laid original lattice) {cell : Cell}
    (covered : cell ∈ original.cells) (within : cell.Within) (towards : Cell) :
    ∃ next, (stitch cell towards).run lattice = .ok () next ∧ Laid original next := by
  cases found : lattice.indexAt? cell with
  | none =>
      have free := indexAt?_eq_none_iff.mp found
      exact absurd (laid.mem_cells covered) (Lattice.isFree_iff.mp free)
  | some index =>
      rcases getElem?_of_indexAt? found with ⟨patch, looked, located⟩
      rcases patch.exists_stitchTowards within towards with ⟨⟨stitched, changed⟩, computed⟩
      refine ⟨_, ?_, laid.modify located (Patch.touched_of_stitchTowards computed)⟩
      simp [stitch, found, looked, computed, Laying.lift]

theorem exists_place (laid : Laid original lattice) (ancillas : List Cell) (cell : Cell) :
    ∃ placed next, (place ancillas cell).run lattice = .ok placed next ∧ Laid original next := by
  cases found : lattice.indexAt? cell with
  | some index => exact ⟨ancillas, lattice, by simp [place, found], laid⟩
  | none =>
      rcases laid.exists_add (indexAt?_eq_none_iff.mp found) with ⟨placed, added, placedLaid⟩
      refine ⟨ancillas ++ [cell], placed, ?_, placedLaid⟩
      simp only [place, EStateM.run_bind, EStateM.run_get, found, added, Laying.lift]
      rfl

theorem exists_join (laid : Laid original lattice) {cell towards : Cell} (roomy : cell.Roomy)
    (towardsRoomy : towards.Roomy) :
    ∃ next, (join cell towards).run lattice = .ok () next ∧ Laid original next := by
  cases found : lattice.indexAt? cell with
  | none => exact ⟨lattice, by simp [join, found], laid⟩
  | some index =>
      rcases getElem?_of_indexAt? found with ⟨patch, looked, located⟩
      rcases patch.exists_joinTowards roomy towardsRoomy with ⟨⟨joined, changed⟩, computed⟩
      refine ⟨_, ?_, laid.modify located (Patch.touched_of_joinTowards computed)⟩
      simp [join, found, looked, computed, Laying.lift]

theorem exists_layInterior (laid : Laid original lattice) (ancillas : List Cell) {path : List Cell}
    (roomy : ∀ cell ∈ path, cell.Roomy) :
    ∃ placed next, (layInterior ancillas path).run lattice = .ok placed next ∧
      Laid original next := by
  induction path generalizing ancillas lattice with
  | nil => exact ⟨ancillas, lattice, rfl, laid⟩
  | cons before rest induction =>
      cases rest with
      | nil => exact ⟨ancillas, lattice, rfl, laid⟩
      | cons cell rest =>
          cases rest with
          | nil => exact ⟨ancillas, lattice, rfl, laid⟩
          | cons next rest =>
              have cellRoomy := roomy cell (by simp)
              rcases exists_place laid ancillas cell with ⟨placed, first, placing, firstLaid⟩
              rcases exists_join firstLaid cellRoomy (roomy next (by simp)) with
                ⟨second, joiningNext, secondLaid⟩
              rcases exists_join secondLaid cellRoomy (roomy before (by simp)) with
                ⟨third, joiningBefore, thirdLaid⟩
              rcases induction thirdLaid placed fun other member => roomy other (.tail _ member)
                with ⟨final, after, laying, finalLaid⟩
              refine ⟨final, after, ?_, finalLaid⟩
              simp only [layInterior, run_bind_eq_ok]
              exact ⟨_, _, placing, _, _, joiningNext, _, _, joiningBefore, laying⟩

/-! ## Trimming -/

/-- A path without the cells of the patches at its ends, except for the last one of each. -/
structure Trimmed (lattice : Lattice) (source target : Cell) (whole path : List Cell) :
    Prop where
  split : ∃ front back, whole = front ++ path ++ back ∧
    (∀ cell ∈ front, lattice.representative? cell = some source) ∧
    ∀ cell ∈ back, lattice.representative? cell = some target
  head : ∃ first, path.head? = some first ∧ lattice.representative? first = some source
  last : ∃ last, path.getLast? = some last ∧ lattice.representative? last = some target
  start : 2 < path.length → ∀ second, path[1]? = some second →
    lattice.representative? second ≠ some source
  finish : 2 < path.length → ∀ previous, path.reverse[1]? = some previous →
    lattice.representative? previous ≠ some target

theorem trimStart_cons (lattice : Lattice) (source first second third : Cell) (rest : List Cell) :
    trimStart lattice source (first :: second :: third :: rest) =
      if lattice.representative? second = some source then
        trimStart lattice source (second :: third :: rest)
      else first :: second :: third :: rest := by
  rw [trimStart]

theorem Laid.trimStart_eq (laid : Laid original lattice) {source : Cell}
    (covered : source ∈ original.cells) (path : List Cell) :
    trimStart lattice source path = trimStart original source path := by
  induction path with
  | nil => rfl
  | cons first rest induction =>
      match rest with
      | [] | [_] => rfl
      | second :: third :: rest =>
          simp only [trimStart_cons, laid.representative?_eq_some_iff covered, induction]

/-- A path loses cells of its first patch until the next one is no cell of that patch. -/
theorem exists_trimStart {source first : Cell} {path : List Cell}
    (head : path.head? = some first) (represented : lattice.representative? first = some source)
    (long : 2 ≤ path.length) :
    ∃ front, path = front ++ trimStart lattice source path ∧
      (∀ cell ∈ front, lattice.representative? cell = some source) ∧
      2 ≤ (trimStart lattice source path).length ∧
      (∃ now, (trimStart lattice source path).head? = some now ∧
        lattice.representative? now = some source) ∧
      (2 < (trimStart lattice source path).length →
        ∀ second, (trimStart lattice source path)[1]? = some second →
          lattice.representative? second ≠ some source) := by
  induction path generalizing first with
  | nil => cases head
  | cons begin rest induction =>
      have same : begin = first := Option.some.inj head
      subst same
      cases rest with
      | nil => simp at long
      | cons second rest =>
          cases rest with
          | nil => exact ⟨[], rfl, nofun, long, ⟨begin, rfl, represented⟩, by simp [trimStart]⟩
          | cons third rest =>
              rw [trimStart_cons]
              split
              · next stays =>
                  rcases induction rfl stays (by simp) with ⟨front, split, inPatch, facts⟩
                  refine ⟨begin :: front, ?_, ?_, facts⟩
                  · rw [List.cons_append, ← split]
                  · exact List.forall_mem_cons.mpr ⟨represented, inPatch⟩
              · next leaves =>
                  refine ⟨[], rfl, nofun, by simp, ⟨begin, rfl, represented⟩, ?_⟩
                  intro _ other located
                  have same : second = other := Option.some.inj located
                  rw [← same]
                  exact leaves

theorem getLast?_trimStart (lattice : Lattice) (source : Cell) (path : List Cell) :
    (trimStart lattice source path).getLast? = path.getLast? := by
  induction path with
  | nil => rfl
  | cons first rest induction =>
      match rest with
      | [] | [_] => rfl
      | second :: third :: rest =>
          rw [trimStart_cons]
          split
          · exact induction.trans List.getLast?_cons_cons.symm
          · rfl

theorem trim_eq {source target : Cell} {whole : List Cell} (head : whole.head? = some source)
    (last : whole.getLast? = some target) :
    trim lattice whole =
      (trimStart lattice target (trimStart lattice source whole).reverse).reverse := by
  rw [← getLast?_trimStart lattice source, ← List.head?_reverse] at last
  simp only [trim, head, last]

theorem trimmed_trim {source target : Cell} {whole : List Cell}
    (head : whole.head? = some source) (last : whole.getLast? = some target)
    (represented : lattice.representative? source = some source)
    (targetRepresented : lattice.representative? target = some target) (long : 2 ≤ whole.length) :
    Trimmed lattice source target whole (trim lattice whole) ∧ 2 ≤ (trim lattice whole).length := by
  rcases exists_trimStart head represented long with
    ⟨front, split, inSource, forwardLong, ⟨first, isFirst, firstIn⟩, start⟩
  rw [trim_eq head last]
  rw [← getLast?_trimStart lattice source, ← List.head?_reverse] at last
  generalize trimStart lattice source whole = forward at *
  have backwardLong : 2 ≤ forward.reverse.length := by
    rw [List.length_reverse]
    exact forwardLong
  rcases exists_trimStart last targetRepresented backwardLong with
    ⟨back, backwardSplit, inTarget, keptLong, ⟨final, isFinal, finalIn⟩, finish⟩
  generalize trimStart lattice target forward.reverse = kept at *
  have forwardSplit : forward = kept.reverse ++ back.reverse := by
    rw [← List.reverse_append, ← backwardSplit, List.reverse_reverse]
  have keptNonempty : kept.reverse ≠ [] := by
    rw [ne_eq, List.reverse_eq_nil_iff]
    exact List.ne_nil_of_length_pos (by omega)
  refine ⟨⟨⟨front, back.reverse, ?_, inSource, ?_⟩, ⟨first, ?_, firstIn⟩, ⟨final, ?_, finalIn⟩,
    ?_, ?_⟩, by rw [List.length_reverse]; exact keptLong⟩
  · rw [List.append_assoc, ← forwardSplit]
    exact split
  · intro cell member
    exact inTarget cell (List.mem_reverse.mp member)
  · rw [← isFirst, forwardSplit, List.head?_append_of_ne_nil _ keptNonempty]
  · rw [List.getLast?_reverse]
    exact isFinal
  · intro three second located
    apply start
    · rw [forwardSplit, List.length_append]
      omega
    · rw [forwardSplit, List.getElem?_append_left (by omega)]
      exact located
  · rw [List.length_reverse, List.reverse_reverse]
    exact finish

/-- A path is trimmed as on the lattice that it was found on. -/
theorem Laid.trim_eq (laid : Laid original lattice) {source target : Cell} {whole : List Cell}
    (head : whole.head? = some source) (last : whole.getLast? = some target)
    (covered : source ∈ original.cells) (targetCovered : target ∈ original.cells) :
    trim lattice whole = trim original whole := by
  rw [Route.trim_eq head last, Route.trim_eq head last, laid.trimStart_eq covered,
    laid.trimStart_eq targetCovered]

/-! ## Whole paths -/

theorem mem_cells_of_representative? {cell source : Cell}
    (represented : lattice.representative? cell = some source) : cell ∈ lattice.cells := by
  rcases Option.bind_eq_some_iff.mp represented with ⟨patch, found, _⟩
  exact Lattice.mem_cells_of_patchAt? found

theorem contains_of_mem_chain {request : Request} {path : List Cell}
    (chain : path.IsChain (Linked original request)) (long : 2 ≤ path.length) :
    ∀ cell ∈ path, original.grid.contains cell = true := by
  induction path with
  | nil => nofun
  | cons first rest induction =>
      match rest, long, chain with
      | [second], _, chain =>
          have inside := (List.isChain_pair.mp chain).contains
          simpa using inside
      | second :: third :: rest, _, chain =>
          rcases List.isChain_cons_cons.mp chain with ⟨linked, chain⟩
          exact List.forall_mem_cons.mpr ⟨linked.contains.1, induction chain (by simp)⟩

theorem Trimmed.roomy {source target : Cell} {whole path : List Cell}
    (trimmed : Trimmed original source target whole path) (sized : original.Sized)
    {request : Request} (chain : whole.IsChain (Linked original request))
    (long : 2 ≤ whole.length) : ∀ cell ∈ path, cell.Roomy := by
  intro cell member
  rcases trimmed.split with ⟨front, back, split, _⟩
  have inWhole : cell ∈ whole := by
    rw [split]
    exact List.mem_append_left _ (List.mem_append_right _ member)
  exact sized.roomy_of_contains (contains_of_mem_chain chain long cell inWhole)

theorem Trimmed.first_mem {source target first : Cell} {whole path rest : List Cell}
    (trimmed : Trimmed lattice source target whole path) (forward : path = first :: rest) :
    first ∈ lattice.cells := by
  rcases trimmed.head with ⟨head, isHead, inSource⟩
  rw [forward] at isHead
  cases isHead
  exact mem_cells_of_representative? inSource

theorem Trimmed.last_mem {source target last : Cell} {whole path rest : List Cell}
    (trimmed : Trimmed lattice source target whole path)
    (backward : path.reverse = last :: rest) : last ∈ lattice.cells := by
  rcases trimmed.last with ⟨final, isFinal, inTarget⟩
  rw [← List.head?_reverse, backward] at isFinal
  cases isFinal
  exact mem_cells_of_representative? inTarget

private theorem exists_cons_cons {path : List Cell} (long : 2 ≤ path.length) :
    ∃ first second rest, path = first :: second :: rest := by
  match path, long with
  | first :: second :: rest, _ => exact ⟨first, second, rest, rfl⟩

theorem run_layPath {whole path rest others : List Cell} {first second last previous : Cell}
    (trimEq : trim lattice whole = path) (forward : path = first :: second :: rest)
    (backward : path.reverse = last :: previous :: others) (region : Region) :
    (layPath region whole).run lattice = (do
      stitch first second
      stitch last previous
      let ancillas ← layInterior region.ancillas path
      return ⟨region.paths ++ [path], ancillas⟩ : Laying Region).run lattice := by
  rw [layPath, EStateM.run_bind, EStateM.run_get]
  simp only [trimEq, backward]
  rw [forward]

/-- A way between two patches can be laid, whatever has been laid before. -/
theorem exists_layPath (sized : original.Sized) (laid : Laid original lattice) {request : Request}
    {source target : Cell} {whole : List Cell}
    (way : Search.IsWay (Linked original request) source target whole) (different : source ≠ target)
    (represented : original.representative? source = some source)
    (targetRepresented : original.representative? target = some target) (region : Region) :
    ∃ next after, (layPath region whole).run lattice = .ok next after ∧ Laid original after ∧
      next.paths = region.paths ++ [trim original whole] := by
  have covered := mem_cells_of_representative? represented
  have targetCovered := mem_cells_of_representative? targetRepresented
  have long := way.two_le_length different
  rcases trimmed_trim way.head way.last represented targetRepresented long with
    ⟨trimmed, trimmedLong⟩
  have trimEq := laid.trim_eq way.head way.last covered targetCovered
  generalize trim original whole = path at *
  have roomy := trimmed.roomy sized way.chain long
  have backwardLong : 2 ≤ path.reverse.length := by
    rw [List.length_reverse]
    exact trimmedLong
  rcases exists_cons_cons trimmedLong with ⟨first, second, rest, forward⟩
  rcases exists_cons_cons backwardLong with ⟨last, previous, others, backward⟩
  have firstRoomy : first.Roomy := roomy first (by simp [forward])
  have lastRoomy : last.Roomy := roomy last (List.mem_reverse.mp (by simp [backward]))
  rcases exists_stitch laid (trimmed.first_mem forward) firstRoomy.within second with
    ⟨stitched, stitching, stitchedLaid⟩
  rcases exists_stitch stitchedLaid (trimmed.last_mem backward) lastRoomy.within previous with
    ⟨both, stitchingLast, bothLaid⟩
  rcases exists_layInterior bothLaid region.ancillas roomy with
    ⟨ancillas, after, interior, afterLaid⟩
  refine ⟨⟨region.paths ++ [path], ancillas⟩, after, ?_, afterLaid, rfl⟩
  rw [run_layPath trimEq forward backward]
  simp only [run_bind_eq_ok]
  exact ⟨_, _, stitching, _, _, stitchingLast, _, _, interior, rfl⟩

end Route

end LatticeSurgery
