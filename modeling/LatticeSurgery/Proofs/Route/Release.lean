import LatticeSurgery.Proofs.Route.Region

namespace LatticeSurgery

open Result

/-! # Undoing a merge

A merge is undone by removing the ancilla patches and releasing the others. Contacts are made by the
patch that is found on their cell, also where several patches share it, so that what has become of a
patch is told by its position and the paths of the region. -/

/-! ## Released patches -/

/-- Joins are never stitched. -/
theorem Edge.isStitched_stitchedIn_iff {contacts : List (Cell × Cell)} {edge : Edge}
    (plain : edge.border.isStitched = false) :
    (edge.stitchedIn contacts).border.isStitched = true ↔
      edge.border ≠ .join ∧ (edge.cell, edge.beyond) ∈ contacts := by
  by_cases isJoin : edge.border = .join
  · have kept : (edge.stitchedIn contacts).border = .join := by
      rw [stitchedIn]
      split
      · exact congrArg Border.stitched isJoin
      · exact isJoin
    simp [kept, isJoin, Border.isStitched]
  · rw [isStitched_stitchedIn ⟨plain, isJoin⟩]
    exact (and_iff_right isJoin).symm

namespace Patch

variable {patch : Patch}

/-- The patch without its state, when that is to be forgotten. -/
def forgottenIf (forget : Bool) (patch : Patch) : Patch :=
  if forget then patch.withState (.idle .unknown) else patch

/-- Of a patch that has been stitched nothing is known after the merge. -/
theorem release_stitchedIn (role_ne : patch.role ≠ .ancilla)
    (plain : ∀ edge ∈ patch.edges, edge.border.isStitched = false) (contacts : List (Cell × Cell)) :
    (patch.stitchedIn contacts).release =
      patch.forgottenIf (patch.stitchedIn contacts).hasStitched := by
  have same : (patch.stitchedIn contacts).unstitched = patch :=
    ((touched_stitchedIn contacts patch).unstitched role_ne).trans (unstitched_eq_self plain)
  rw [release, forgottenIf]
  cases stitched : (patch.stitchedIn contacts).hasStitched with
  | true =>
      rw [if_pos rfl, if_pos rfl]
      exact congrArg (withState · (.idle .unknown)) same
  | false =>
      have released : ∀ edge ∈ (patch.stitchedIn contacts).edges,
          edge.border.isStitched = false := by
        simpa [hasStitched] using stitched
      rw [if_neg Bool.false_ne_true, if_neg Bool.false_ne_true]
      exact (unstitched_eq_self released).symm.trans same

end Patch

/-! ## Contacts by position -/

namespace Lattice

/-- The contacts on cells where the patch at a position is found. -/
def contactsAt (lattice : Lattice) (contacts : List (Cell × Cell)) (index : Nat) :
    List (Cell × Cell) :=
  contacts.filter fun pair => lattice.indexAt? pair.1 = some index

/-- The patches with their contacts made. -/
def stitchedIn (lattice : Lattice) (contacts : List (Cell × Cell)) : List Patch :=
  lattice.patches.mapIdx fun index patch => patch.stitchedIn (lattice.contactsAt contacts index)

variable {lattice : Lattice} {contacts : List (Cell × Cell)}

theorem mem_contactsAt {pair : Cell × Cell} {index : Nat} :
    pair ∈ lattice.contactsAt contacts index ↔
      pair ∈ contacts ∧ lattice.indexAt? pair.1 = some index := by
  rw [contactsAt, List.mem_filter, decide_eq_true_eq]

@[simp] theorem length_stitchedIn : (lattice.stitchedIn contacts).length = lattice.patches.length :=
  List.length_mapIdx

theorem getElem?_stitchedIn (index : Nat) :
    (lattice.stitchedIn contacts)[index]? = lattice.patches[index]?.map fun patch =>
      patch.stitchedIn (lattice.contactsAt contacts index) :=
  List.getElem?_mapIdx

theorem map_cells_stitchedIn :
    (lattice.stitchedIn contacts).map Patch.cells = lattice.patches.map Patch.cells := by
  apply List.ext_getElem?
  intro index
  rw [List.getElem?_map, getElem?_stitchedIn, Option.map_map, List.getElem?_map]
  rfl

theorem stitchedIn_nil : lattice.stitchedIn [] = lattice.patches := by
  apply List.ext_getElem?
  intro index
  rw [getElem?_stitchedIn]
  cases lattice.patches[index]? with
  | none => rfl
  | some patch => exact congrArg some (Patch.stitchedIn_eq_self fun _ _ => List.not_mem_nil)

theorem contactsAt_concat (pair : Cell × Cell) (index : Nat) :
    lattice.contactsAt (contacts ++ [pair]) index =
      if lattice.indexAt? pair.1 = some index then lattice.contactsAt contacts index ++ [pair]
      else lattice.contactsAt contacts index := by
  rw [contactsAt, List.filter_append, contactsAt]
  split
  · next here => rw [List.filter_cons_of_pos (by simpa using here), List.filter_nil]
  · next elsewhere =>
      rw [List.filter_cons_of_neg (by simpa using elsewhere), List.filter_nil, List.append_nil]

/-- One more contact changes the patch on its cell. -/
theorem stitchedIn_concat {pair : Cell × Cell} {index : Nat} {patch : Patch}
    (found : lattice.indexAt? pair.1 = some index)
    (located : (lattice.stitchedIn contacts)[index]? = some patch) :
    lattice.stitchedIn (contacts ++ [pair]) =
      (lattice.stitchedIn contacts).modify index fun _ => patch.stitchedIn [pair] := by
  apply List.ext_getElem?
  intro position
  rw [List.getElem?_modify, getElem?_stitchedIn, contactsAt_concat, found]
  by_cases here : index = position
  · subst here
    rw [located]
    rw [getElem?_stitchedIn, Option.map_eq_some_iff] at located
    rcases located with ⟨before, beforeLocated, rfl⟩
    simp [beforeLocated, Patch.stitchedIn_stitchedIn]
  · rw [getElem?_stitchedIn]
    simp [here]

/-- A contact on a free cell changes nothing. -/
theorem stitchedIn_concat_of_free {pair : Cell × Cell} (free : lattice.indexAt? pair.1 = none) :
    lattice.stitchedIn (contacts ++ [pair]) = lattice.stitchedIn contacts := by
  apply List.ext_getElem?
  intro position
  rw [getElem?_stitchedIn, getElem?_stitchedIn, contactsAt_concat, free, if_neg nofun]

/-- A contact has stitched the patch at a position. -/
def hasContact (lattice : Lattice) (contacts : List (Cell × Cell)) (index : Nat) : Bool :=
  (lattice.stitchedIn contacts)[index]?.any Patch.hasStitched

theorem hasContact_of_getElem? {index : Nat} {patch : Patch}
    (located : lattice.patches[index]? = some patch) :
    lattice.hasContact contacts index =
      (patch.stitchedIn (lattice.contactsAt contacts index)).hasStitched := by
  rw [hasContact, getElem?_stitchedIn, located]
  rfl

/-- A contact stitches the borders across it that are no joins. -/
theorem hasContact_iff
    (plain : ∀ patch ∈ lattice.patches, ∀ edge ∈ patch.edges, edge.border.isStitched = false)
    {index : Nat} :
    lattice.hasContact contacts index = true ↔ ∃ patch edge, lattice.patches[index]? = some patch ∧
      edge ∈ patch.edges ∧ edge.border ≠ .join ∧ (edge.cell, edge.beyond) ∈ contacts ∧
      lattice.indexAt? edge.cell = some index := by
  cases located : lattice.patches[index]? with
  | none => simp [hasContact, getElem?_stitchedIn, located]
  | some patch =>
      have borders := plain patch (List.mem_of_getElem? located)
      rw [hasContact_of_getElem? located, Patch.hasStitched, List.any_eq_true]
      constructor
      · rintro ⟨_, image, isStitched⟩
        rcases List.mem_map.mp image with ⟨edge, member, rfl⟩
        rw [Edge.isStitched_stitchedIn_iff (borders edge member), mem_contactsAt] at isStitched
        exact ⟨patch, edge, rfl, member, isStitched⟩
      · rintro ⟨_, edge, same, member, contact⟩
        cases same
        refine ⟨_, List.mem_map_of_mem member, ?_⟩
        rw [Edge.isStitched_stitchedIn_iff (borders edge member), mem_contactsAt]
        exact contact

theorem modify_self {index : Nat} {patch : Patch} (located : lattice.patches[index]? = some patch) :
    (lattice.modify index fun _ => patch) = lattice := by
  rcases List.getElem?_eq_some_iff.mp located with ⟨inside, rfl⟩
  rw [modify, ← List.set_eq_modify, List.set_getElem_self]

theorem indexAt?_eq (cell : Cell) :
    lattice.indexAt? cell = (lattice.patches.map Patch.cells).findIdx? fun cells =>
      cells.contains cell := by
  rw [indexAt?, List.findIdx?_map]
  rfl

theorem Open.representative?_eq {cell : Cell} (isOpen : lattice.Open cell) :
    lattice.representative? cell = none := by
  rw [representative?, isOpen.patchAt?_eq]
  rfl

theorem Gate.border_ne_join {cell : Cell} {basis : Pauli} {edge : Edge}
    (gate : lattice.Gate cell basis edge) : edge.border ≠ .join := by
  have exposes := gate.exposes
  intro isJoin
  rw [isJoin] at exposes
  cases basis <;> cases exposes

end Lattice

namespace Route

/-- The contacts at the ends of a path. -/
def ends (path : List Cell) : List (Cell × Cell) :=
  match path, path.reverse with
  | first :: second :: _, last :: previous :: _ => [(first, second), (last, previous)]
  | _, _ => []

theorem ends_eq {path rest others : List Cell} {first second last previous : Cell}
    (forward : path = first :: second :: rest)
    (backward : path.reverse = last :: previous :: others) :
    ends path = [(first, second), (last, previous)] := by
  rw [ends.eq_def, backward, forward]

theorem mem_ends {path : List Cell} {pair : Cell × Cell} (member : pair ∈ ends path) :
    path.head? = some pair.1 ∨ path.getLast? = some pair.1 := by
  rw [ends.eq_def] at member
  split at member
  · next first second rest last previous others backward =>
      rw [List.mem_pair] at member
      rcases member with rfl | rfl
      · exact .inl rfl
      · rw [← List.head?_reverse, backward]
        exact .inr rfl
  · cases member

/-- The original lattice with contacts made and ancilla patches behind its own. -/
structure Stitched (original : Lattice) (contacts : List (Cell × Cell)) (lattice : Lattice) :
    Prop where
  leastRows : lattice.leastRows = original.leastRows
  leastCols : lattice.leastCols = original.leastCols
  patches : ∃ laid, lattice.patches = original.stitchedIn contacts ++ laid ∧
    ∀ patch ∈ laid, patch.role = .ancilla ∧ ∃ cell, patch.cells = [cell]

namespace Stitched

variable {original lattice next : Lattice} {contacts : List (Cell × Cell)} {cell towards : Cell}

theorem refl (original : Lattice) : Stitched original [] original :=
  ⟨rfl, rfl, [], by rw [Lattice.stitchedIn_nil, List.append_nil], List.forall_mem_nil _⟩

theorem laid (stitched : Stitched original contacts lattice) : Laid original lattice := by
  rcases stitched.patches with ⟨laid, split, areAncillas⟩
  refine ⟨stitched.leastRows, stitched.leastCols, _, laid, split, ?_, areAncillas⟩
  rw [List.forall₂_iff_get]
  refine ⟨Lattice.length_stitchedIn.symm, ?_⟩
  intro index inside _
  simp only [Lattice.stitchedIn, List.get_eq_getElem, List.getElem_mapIdx]
  exact Patch.touched_stitchedIn _ _

/-- The patches that were there are found where they were found. -/
theorem indexAt?_of_original (stitched : Stitched original contacts lattice) {index : Nat}
    (found : original.indexAt? cell = some index) : lattice.indexAt? cell = some index := by
  rcases stitched.patches with ⟨laid, split, _⟩
  rw [Lattice.indexAt?_eq] at found ⊢
  rw [split, List.map_append, Lattice.map_cells_stitchedIn, List.findIdx?_append, found]
  rfl

/-- A cell that was free has none of the patches that were there. -/
theorem le_of_indexAt? (stitched : Stitched original contacts lattice) {index : Nat}
    (free : original.indexAt? cell = none) (found : lattice.indexAt? cell = some index) :
    original.patches.length ≤ index := by
  rcases stitched.patches with ⟨laid, split, _⟩
  rw [Lattice.indexAt?_eq] at free found
  rw [split, List.map_append, Lattice.map_cells_stitchedIn, List.findIdx?_append, free,
    Option.none_or, Option.map_eq_some_iff] at found
  rcases found with ⟨later, _, rfl⟩
  rw [List.length_map]
  exact Nat.le_add_left _ _

/-- Changes of ancilla patches leave all others alone. -/
theorem modify (stitched : Stitched original contacts lattice) {index : Nat} {before after : Patch}
    (behind : original.patches.length ≤ index) (located : lattice.patches[index]? = some before)
    (role : after.role = before.role) (cells : after.cells = before.cells) :
    Stitched original contacts (lattice.modify index fun _ => after) := by
  rcases stitched.patches with ⟨laid, split, areAncillas⟩
  have inLaid : (original.stitchedIn contacts).length ≤ index := by
    rw [Lattice.length_stitchedIn]
    exact behind
  rw [split, List.getElem?_append_right inLaid] at located
  have wasAncilla := areAncillas before (List.mem_of_getElem? located)
  refine ⟨stitched.leastRows, stitched.leastCols,
    laid.set (index - (original.stitchedIn contacts).length) after, ?_, ?_⟩
  · rw [Lattice.modify, split, ← List.set_eq_modify, List.set_append_right _ _ inLaid]
  · intro patch member
    cases List.mem_or_eq_of_mem_set member with
    | inl old => exact areAncillas patch old
    | inr new =>
        rw [new, role, cells]
        exact wasAncilla

theorem stitch (stitched : Stitched original contacts lattice)
    (performed : (Route.stitch cell towards).run lattice = .ok () next) :
    Stitched original (contacts ++ [(cell, towards)]) next := by
  rcases run_stitch_eq_ok performed with ⟨index, patch, after, _, found, looked, computed, rfl⟩
  rcases getElem?_of_indexAt? found with ⟨other, otherLooked, located⟩
  cases looked.symm.trans otherLooked
  have made := Patch.stitchTowards_eq_ok computed
  cases place : original.indexAt? cell with
  | none =>
      have free : original.indexAt? (cell, towards).1 = none := place
      have touched := Patch.touched_of_stitchTowards computed
      have changed := stitched.modify (stitched.le_of_indexAt? place found) located touched.role
        touched.cells
      rcases changed.patches with ⟨laid, split, areAncillas⟩
      refine ⟨stitched.leastRows, stitched.leastCols, laid, ?_, areAncillas⟩
      rw [Lattice.stitchedIn_concat_of_free free]
      exact split
  | some position =>
      cases (stitched.indexAt?_of_original place).symm.trans found
      rcases stitched.patches with ⟨laid, split, areAncillas⟩
      have inside : index < (original.stitchedIn contacts).length := by
        rcases getElem?_of_indexAt? place with ⟨_, _, before⟩
        rw [Lattice.length_stitchedIn]
        exact (List.getElem?_eq_some_iff.mp before).1
      rw [split, List.getElem?_append_left inside] at located
      refine ⟨stitched.leastRows, stitched.leastCols, laid, ?_, areAncillas⟩
      rw [Lattice.stitchedIn_concat place located, ← made, Lattice.modify, split,
        ← List.set_eq_modify, ← List.set_eq_modify, List.set_append_left _ _ inside]

theorem place (stitched : Stitched original contacts lattice) {ancillas placed : List Cell}
    (performed : (Route.place ancillas cell).run lattice = .ok placed next) :
    Stitched original contacts next := by
  cases run_place_eq_ok performed with
  | inl occupied =>
      rcases occupied with ⟨_, _, rfl⟩
      exact stitched
  | inr vacant =>
      rcases vacant with ⟨_, _, rfl⟩
      rcases stitched.patches with ⟨laid, split, areAncillas⟩
      refine ⟨stitched.leastRows, stitched.leastCols, laid ++ [Patch.ancilla cell], ?_, ?_⟩
      · rw [split, List.append_assoc]
      · rw [List.forall_mem_append, List.forall_mem_singleton]
        exact ⟨areAncillas, rfl, cell, rfl⟩

variable (noAncilla : ∀ patch ∈ original.patches, patch.role ≠ .ancilla)

include noAncilla

/-- Patches in front of the ancilla patches are none themselves. -/
theorem role_ne (stitched : Stitched original contacts lattice) {index : Nat} {patch : Patch}
    (before : index < original.patches.length) (located : lattice.patches[index]? = some patch) :
    patch.role ≠ .ancilla := by
  rcases stitched.patches with ⟨laid, split, _⟩
  rw [split, List.getElem?_append_left (by rwa [Lattice.length_stitchedIn]),
    Lattice.getElem?_stitchedIn, Option.map_eq_some_iff] at located
  rcases located with ⟨was, wasLocated, rfl⟩
  exact noAncilla was (List.mem_of_getElem? wasLocated)

/-- Only ancilla patches are joined. -/
theorem join (stitched : Stitched original contacts lattice)
    (performed : (Route.join cell towards).run lattice = .ok () next) :
    Stitched original contacts next := by
  cases found : lattice.indexAt? cell with
  | none =>
      simp only [Route.join, EStateM.run_bind, EStateM.run_get, found] at performed
      cases performed
      exact stitched
  | some index =>
      rcases getElem?_of_indexAt? found with ⟨patch, looked, located⟩
      rcases run_join_eq_ok performed (Lattice.mem_cells_of_patchAt? looked) with
        ⟨_, _, joined, _, otherFound, otherLooked, computed, rfl⟩
      cases found.symm.trans otherFound
      cases looked.symm.trans otherLooked
      by_cases behind : original.patches.length ≤ index
      · have touched := Patch.touched_of_joinTowards computed
        exact stitched.modify behind located touched.role touched.cells
      · have notAncilla := stitched.role_ne noAncilla (Nat.lt_of_not_le behind) located
        rw [Patch.joinTowards, if_neg fun isAncilla => notAncilla isAncilla.1] at computed
        cases computed
        rwa [Lattice.modify_self located]

theorem layInterior (stitched : Stitched original contacts lattice)
    {ancillas placed path : List Cell}
    (performed : (Route.layInterior ancillas path).run lattice = .ok placed next) :
    Stitched original contacts next := by
  induction path generalizing ancillas lattice with
  | nil =>
      cases performed
      exact stitched
  | cons before rest induction =>
      match rest with
      | [] | [_] =>
          cases performed
          exact stitched
      | cell :: after :: rest =>
          simp only [Route.layInterior, run_bind_eq_ok] at performed
          rcases performed with
            ⟨some, first, placing, _, second, joiningAfter, _, third, joiningBefore, laying⟩
          have joined := ((stitched.place placing).join noAncilla joiningAfter).join noAncilla
            joiningBefore
          exact induction joined laying

/-- Laying a path makes the contacts at its ends. -/
theorem layPath {region final : Region}
    (stitched : Stitched original (region.paths.flatMap ends) lattice) {whole : List Cell}
    (performed : (Route.layPath region whole).run lattice = .ok final next) :
    Stitched original (final.paths.flatMap ends) next ∧
      final.paths = region.paths ++ [trim lattice whole] := by
  rw [Route.layPath, run_bind_eq_ok] at performed
  rcases performed with ⟨_, _, got, performed⟩
  cases got
  dsimp only at performed
  generalize trim lattice whole = path at performed ⊢
  split at performed
  · next first second rest last previous others backward =>
      simp only [run_bind_eq_ok] at performed
      rcases performed with ⟨_, _, leaving, _, _, entering, ancillas, _, laying, made⟩
      cases made
      have both := ((stitched.stitch leaving).stitch entering).layInterior noAncilla laying
      refine ⟨?_, rfl⟩
      rw [List.flatMap_append, List.flatMap_singleton, ends_eq rfl backward]
      rwa [List.append_assoc] at both
  · cases performed

/-- Laying paths makes the contacts at the ends of what is left of them by trimming. -/
theorem layPaths {region final : Region}
    (stitched : Stitched original (region.paths.flatMap ends) lattice) {paths : List (List Cell)}
    (trims : ∀ path ∈ paths, ∀ between, Laid original between →
      trim between path = trim original path)
    (performed : (paths.foldlM Route.layPath region).run lattice = .ok final next) :
    Stitched original (final.paths.flatMap ends) next ∧
      final.paths = region.paths ++ paths.map (trim original) := by
  induction paths generalizing region lattice with
  | nil =>
      cases performed
      exact ⟨stitched, (List.append_nil _).symm⟩
  | cons path rest induction =>
      rcases List.forall_mem_cons.mp trims with ⟨trimmed, trims⟩
      rw [List.foldlM_cons, run_bind_eq_ok] at performed
      rcases performed with ⟨between, middle, laying, performed⟩
      rcases stitched.layPath noAncilla laying with ⟨middleStitched, middlePaths⟩
      rcases induction middleStitched trims performed with ⟨finalStitched, finalPaths⟩
      refine ⟨finalStitched, ?_⟩
      rw [finalPaths, middlePaths, List.append_assoc, trimmed lattice stitched.laid]
      rfl

/-- When the merge is undone, all that is left of it are the states that have been forgotten. -/
theorem clearAncilla_eq (stitched : Stitched original contacts lattice)
    (plain : ∀ patch ∈ original.patches, ∀ edge ∈ patch.edges, edge.border.isStitched = false) :
    lattice.clearAncilla = { original with
      patches := original.patches.mapIdx fun index patch =>
        patch.forgottenIf (original.hasContact contacts index) } := by
  rcases stitched.patches with ⟨laid, split, areAncillas⟩
  have dropped : laid.filter (fun patch => decide (patch.role ≠ .ancilla)) = [] := by
    apply List.filter_eq_nil_iff.mpr
    intro patch member
    simp [(areAncillas patch member).1]
  have kept : (original.stitchedIn contacts).filter (fun patch => decide (patch.role ≠ .ancilla)) =
      original.stitchedIn contacts := by
    apply List.filter_eq_self.mpr
    intro patch member
    rcases List.mem_mapIdx.mp member with ⟨index, inside, rfl⟩
    have notAncilla := noAncilla _ (List.getElem_mem inside)
    exact decide_eq_true notAncilla
  have released : (original.stitchedIn contacts).map Patch.release =
      original.patches.mapIdx fun index patch =>
        patch.forgottenIf (original.hasContact contacts index) := by
    apply List.ext_getElem?
    intro index
    rw [List.getElem?_map, Lattice.getElem?_stitchedIn, List.getElem?_mapIdx]
    cases located : original.patches[index]? with
    | none => rfl
    | some patch =>
        have member := List.mem_of_getElem? located
        simp only [Option.map_some, Lattice.hasContact_of_getElem? located,
          Patch.release_stitchedIn (noAncilla patch member) (plain patch member)]
  rw [Lattice.clearAncilla, split, List.filter_append, kept, dropped, List.append_nil, released,
    stitched.leastRows, stitched.leastCols]

end Stitched

/-! ## The patches of a request -/

/-- The patch at a position is named by the request. -/
def isRequested (lattice : Lattice) (request : Request) (index : Nat) : Bool :=
  request.any fun entry => lattice.indexAt? entry.1 = some index

variable {lattice after : Lattice} {source : Cell × Pauli} {targets : Request} {region : Region}

theorem isRequested_iff {request : Request} {index : Nat} :
    isRequested lattice request index = true ↔
      ∃ entry ∈ request, lattice.indexAt? entry.1 = some index := by
  simp [isRequested]

theorem exists_indexAt? {cell : Cell} {patch : Patch} (found : lattice.patchAt? cell = some patch) :
    ∃ index, lattice.indexAt? cell = some index ∧ lattice.patches[index]? = some patch := by
  cases position : lattice.indexAt? cell with
  | none =>
      rw [indexAt?_eq_none_iff, ← Lattice.patchAt?_eq_none_iff, found] at position
      cases position
  | some index =>
      rcases getElem?_of_indexAt? position with ⟨other, looked, located⟩
      cases found.symm.trans looked
      exact ⟨index, rfl, located⟩

/-- The patch that is found on a cell is the first one there. -/
theorem indexAt?_le {cell : Cell} {index other : Nat} {patch : Patch}
    (found : lattice.indexAt? cell = some index) (located : lattice.patches[other]? = some patch)
    (covered : cell ∈ patch.cells) : index ≤ other := by
  rcases List.getElem?_eq_some_iff.mp located with ⟨inside, rfl⟩
  rcases List.findIdx?_eq_some_iff_getElem.mp found with ⟨_, _, earlier⟩
  by_contra later
  have missed := earlier other (Nat.lt_of_not_le later)
  simp [Patch.covers, covered] at missed

/-- Two cells have one patch when the patch that is found on either of them covers the other. -/
theorem indexAt?_eq_of_covers {cell other : Cell} {patch otherPatch : Patch}
    (found : lattice.patchAt? cell = some patch)
    (otherFound : lattice.patchAt? other = some otherPatch)
    (covers : other ∈ patch.cells) (otherCovers : cell ∈ otherPatch.cells) :
    lattice.indexAt? cell = lattice.indexAt? other := by
  rcases exists_indexAt? found with ⟨index, position, located⟩
  rcases exists_indexAt? otherFound with ⟨otherIndex, otherPosition, otherLocated⟩
  have same : index = otherIndex := Nat.le_antisymm
    (indexAt?_le position otherLocated otherCovers) (indexAt?_le otherPosition located covers)
  rw [position, otherPosition, same]

/-! ### Ends of paths -/

/-- Links between covered cells lead from the source to the cell of a gate, or from the cell of a
gate to a target. -/
theorem Linked.gate_of_represents {cell next first second : Cell}
    (linked : Linked lattice (source :: targets) cell next)
    (represents : lattice.representative? cell = some first)
    (nextRepresents : lattice.representative? next = some second) :
    (∃ edge, lattice.Gate source.1 source.2 edge ∧ cell = source.1 ∧ next = edge.cell) ∨
      ∃ target ∈ targets, ∃ edge, lattice.Gate target.1 target.2 edge ∧ cell = edge.cell ∧
        next = target.1 := by
  cases linked with
  | adjacent side isOpen _ => cases represents.symm.trans isOpen.representative?_eq
  | toGate isHead gate =>
      cases isHead
      exact .inl ⟨_, gate, rfl, rfl⟩
  | leave _ gate => cases nextRepresents.symm.trans gate.isOpen.representative?_eq
  | enter _ gate => cases represents.symm.trans gate.isOpen.representative?_eq
  | fromGate isTarget gate => exact .inr ⟨_, isTarget, _, gate, rfl, rfl⟩

section Ends

variable (valid : Valid lattice (source :: targets))
  (own : ∀ patch ∈ lattice.patches, ∀ edge ∈ patch.edges, edge.cell ∈ patch.cells)

include own

/-- A patch is found on the cell of its gate when the patch that is found there has the same
representative. -/
theorem indexAt?_eq_of_represents {entry : Cell} {basis : Pauli} {edge : Edge}
    (gate : lattice.Gate entry basis edge)
    (represents : lattice.representative? edge.cell = some entry) :
    lattice.indexAt? edge.cell = lattice.indexAt? entry := by
  rcases gate.patch with ⟨patch, found, member⟩
  rcases Option.bind_eq_some_iff.mp represents with ⟨other, otherFound, head⟩
  exact (indexAt?_eq_of_covers found otherFound
    (own patch (Lattice.mem_of_patchAt? found).1 edge member) (List.mem_of_head? head)).symm

include valid

/-- A link that stays on the source leads to a cell where the source is found. -/
theorem indexAt?_eq_of_linked_source {cell next : Cell}
    (linked : Linked lattice (source :: targets) cell next)
    (represents : lattice.representative? cell = some source.1)
    (nextRepresents : lattice.representative? next = some source.1) :
    lattice.indexAt? next = lattice.indexAt? source.1 := by
  rcases linked.gate_of_represents represents nextRepresents with
    ⟨edge, gate, _, rfl⟩ | ⟨target, isTarget, _, _, _, rfl⟩
  · exact indexAt?_eq_of_represents own gate nextRepresents
  · rw [valid.represents target (.tail _ isTarget)] at nextRepresents
    exact absurd (Option.some.inj nextRepresents).symm (valid.ne_of_mem isTarget)

/-- A link that stays on a target starts from a cell where the target is found. -/
theorem indexAt?_eq_of_linked_target {target : Cell × Pauli} (isTarget : target ∈ targets)
    {cell next : Cell} (linked : Linked lattice (source :: targets) cell next)
    (represents : lattice.representative? cell = some target.1)
    (nextRepresents : lattice.representative? next = some target.1) :
    lattice.indexAt? cell = lattice.indexAt? target.1 := by
  rcases linked.gate_of_represents represents nextRepresents with
    ⟨_, _, rfl, _⟩ | ⟨other, isOther, edge, gate, rfl, rfl⟩
  · rw [valid.represents source List.mem_cons_self] at represents
    exact absurd (Option.some.inj represents) (valid.ne_of_mem isTarget)
  · rw [valid.represents other (.tail _ isOther)] at nextRepresents
    rw [← Option.some.inj nextRepresents] at represents ⊢
    exact indexAt?_eq_of_represents own gate represents

/-- What trimming leaves of a way starts where the source is found. -/
theorem Trimmed.indexAt?_head {target : Cell × Pauli} {whole path : List Cell}
    (trimmed : Trimmed lattice source.1 target.1 whole path)
    (way : Search.IsWay (Linked lattice (source :: targets)) source.1 target.1 whole) {first : Cell}
    (head : path.head? = some first) : lattice.indexAt? first = lattice.indexAt? source.1 := by
  rcases trimmed.split with ⟨front, back, split, inSource, _⟩
  rcases trimmed.head with ⟨_, isHead, represents⟩
  cases head.symm.trans isHead
  have start : (path ++ back).head? = some first := by
    rw [List.head?_append, head, Option.some_or]
  have chain := way.chain
  rw [split, List.append_assoc, List.isChain_append] at chain
  cases last : front.getLast? with
  | none =>
      have wayHead := way.head
      rw [split, List.append_assoc, List.getLast?_eq_none_iff.mp last, List.nil_append, start,
        Option.some.injEq] at wayHead
      rw [wayHead]
  | some before =>
      exact indexAt?_eq_of_linked_source valid own (chain.2.2 before last first start)
        (inSource before (List.mem_of_getLast? last)) represents

/-- What trimming leaves of a way ends where the target is found. -/
theorem Trimmed.indexAt?_getLast {target : Cell × Pauli} (isTarget : target ∈ targets)
    {whole path : List Cell} (trimmed : Trimmed lattice source.1 target.1 whole path)
    (way : Search.IsWay (Linked lattice (source :: targets)) source.1 target.1 whole) {final : Cell}
    (last : path.getLast? = some final) : lattice.indexAt? final = lattice.indexAt? target.1 := by
  rcases trimmed.split with ⟨front, back, split, _, inTarget⟩
  rcases trimmed.last with ⟨_, isLast, represents⟩
  cases last.symm.trans isLast
  have finish : (front ++ path).getLast? = some final := by
    rw [List.getLast?_append, last, Option.some_or]
  have chain := way.chain
  rw [split, List.isChain_append] at chain
  cases head : back.head? with
  | none =>
      have wayLast := way.last
      rw [split, List.head?_eq_none_iff.mp head, List.append_nil, finish, Option.some.injEq]
        at wayLast
      rw [wayLast]
  | some after =>
      exact indexAt?_eq_of_linked_target valid own isTarget (chain.2.2 final finish after head)
        represents (inTarget after (List.mem_of_head? head))

end Ends

/-! ## Undone merges -/

/-- The region of a granted request is made of trimmed ways. -/
theorem exists_ways (noAncilla : ∀ patch ∈ lattice.patches, patch.role ≠ .ancilla)
    (valid : Valid lattice (source :: targets))
    (performed : (lay (source :: targets)).run lattice = .ok region after) :
    ∃ paths, List.Forall₂ (fun target path => Search.IsWay (Linked lattice (source :: targets))
        source.1 target.1 path) targets paths ∧
      region.paths = paths.map (trim lattice) ∧
      Stitched lattice (region.paths.flatMap ends) after := by
  have checked := check_eq_ok_iff.mpr valid
  cases found : findPaths lattice (source :: targets) with
  | error failure =>
      rw [run_lay_of_findPaths checked found] at performed
      cases performed
  | ok paths =>
      have ways := isWay_of_findPaths found
      have trims : ∀ path ∈ paths, ∀ between, Laid lattice between →
          trim between path = trim lattice path := by
        intro path member between laid
        rcases exists_of_mem_right ways member with ⟨target, isTarget, way⟩
        exact laid.trim_eq way.head way.last
          (mem_cells_of_representative? (valid.represents source List.mem_cons_self))
          (mem_cells_of_representative? (valid.represents target (.tail _ isTarget)))
      rw [run_lay checked found] at performed
      have start : Stitched lattice ((Region.mk [] []).paths.flatMap ends) lattice := .refl lattice
      rcases start.layPaths noAncilla trims performed with ⟨stitched, pathsEq⟩
      exact ⟨paths, ways, pathsEq, stitched⟩

/-- The contacts at the ends of trimmed ways are made by patches of the request. -/
theorem isRequested_of_mem_ends (valid : Valid lattice (source :: targets))
    (own : ∀ patch ∈ lattice.patches, ∀ edge ∈ patch.edges, edge.cell ∈ patch.cells)
    {paths : List (List Cell)}
    (ways : List.Forall₂ (fun target path => Search.IsWay (Linked lattice (source :: targets))
      source.1 target.1 path) targets paths)
    {pair : Cell × Cell} (member : pair ∈ (paths.map (trim lattice)).flatMap ends) {index : Nat}
    (found : lattice.indexAt? pair.1 = some index) :
    isRequested lattice (source :: targets) index = true := by
  rw [List.flatMap_map] at member
  rcases List.mem_flatMap.mp member with ⟨path, pathMember, atEnd⟩
  rcases exists_of_mem_right ways pathMember with ⟨target, isTarget, way⟩
  have trimmed := (trimmed_trim way.head way.last (valid.represents source List.mem_cons_self)
    (valid.represents target (.tail _ isTarget))
    (way.two_le_length (valid.ne_of_mem isTarget))).1
  rw [isRequested_iff]
  cases mem_ends atEnd with
  | inl isFirst =>
      have same := trimmed.indexAt?_head valid own way isFirst
      exact ⟨source, List.mem_cons_self, same.symm.trans found⟩
  | inr isLast =>
      have same := trimmed.indexAt?_getLast valid own isTarget way isLast
      exact ⟨target, .tail _ isTarget, same.symm.trans found⟩

/-- The patches of a request are the ones that are found on the cells of their edges. -/
def Unhidden (lattice : Lattice) (request : Request) : Prop :=
  ∀ entry ∈ request, ∀ patch, lattice.patchAt? entry.1 = some patch →
    ∀ edge ∈ patch.edges, lattice.patchAt? edge.cell = some patch

theorem Unhidden.foremost {request : Request} (unhidden : Unhidden lattice request) :
    Foremost lattice request := by
  intro entry member edge gate
  rcases gate.patch with ⟨patch, found, edgeMember⟩
  rw [found, unhidden entry member patch found edge edgeMember]

theorem Span.Connects.ends_path {target : Cell × Pauli} {span : Span}
    (connects : span.Connects lattice source target) :
    ends span.path =
      [(span.leaving.cell, span.leaving.beyond), (span.entering.cell, span.entering.beyond)] := by
  rcases connects.path_eq with ⟨rest, forward⟩
  rcases connects.exists_path_eq_append with ⟨others, split⟩
  apply ends_eq forward
  rw [split, List.reverse_append]
  rfl

/-- The gates of unhidden patches get their contacts. -/
theorem Unhidden.exists_gate (unhidden : Unhidden lattice (source :: targets))
    (valid : Valid lattice (source :: targets)) {paths : List (List Cell)}
    (ways : List.Forall₂ (fun target path => Search.IsWay (Linked lattice (source :: targets))
      source.1 target.1 path) targets paths)
    {entry : Cell × Pauli} (member : entry ∈ source :: targets) :
    ∃ gate, lattice.Gate entry.1 entry.2 gate ∧
      (gate.cell, gate.beyond) ∈ (paths.map (trim lattice)).flatMap ends := by
  rcases exists_routes unhidden.foremost valid (List.Subset.refl targets) ways with
    ⟨routes, targetsEq, connects, trims⟩
  have spans : paths.map (trim lattice) = routes.map fun route => route.2.path := by
    rw [← List.forall₂_eq_eq_eq, List.forall₂_map_left_iff, List.forall₂_map_right_iff]
    exact trims.imp fun _ _ trimmed => trimmed lattice (.refl lattice)
  have several : routes ≠ [] := by
    have several := valid.several
    rw [List.length_cons, ← targetsEq, List.length_map] at several
    exact List.ne_nil_of_length_pos (by omega)
  rcases exists_uses_of_mem several (targetsEq.symm ▸ member) with ⟨gate, uses⟩
  refine ⟨gate, uses.gate connects, ?_⟩
  rw [spans, List.flatMap_map]
  rcases uses with ⟨route, routeMember, uses⟩
  refine List.mem_flatMap.mpr ⟨route, routeMember, ?_⟩
  rw [(connects route routeMember).ends_path]
  rcases uses with ⟨_, rfl⟩ | ⟨_, rfl⟩
  · exact List.mem_cons_self
  · exact List.mem_cons_of_mem _ List.mem_cons_self

/-- An undone merge leaves the patches as they were, in their order. Only patches of the request
have lost their state, and all of them have when none is hidden. -/
theorem clearAncilla_of_route {request : Request}
    (noAncilla : ∀ patch ∈ lattice.patches, patch.role ≠ .ancilla)
    (plain : ∀ patch ∈ lattice.patches, ∀ edge ∈ patch.edges, edge.border.isStitched = false)
    (own : ∀ patch ∈ lattice.patches, ∀ edge ∈ patch.edges, edge.cell ∈ patch.cells)
    (routed : lattice.route request = .ok (after, region)) :
    ∃ forgotten : Nat → Bool,
      after.clearAncilla = { lattice with
        patches := lattice.patches.mapIdx fun index patch => patch.forgottenIf (forgotten index) } ∧
      (∀ index, forgotten index = true → isRequested lattice request index = true) ∧
      (Unhidden lattice request →
        ∀ index, isRequested lattice request index = true → forgotten index = true) := by
  have performed := run_lay_of_route routed
  have valid := valid_of_run_lay performed
  match request, valid with
  | [], valid => exact absurd valid.several (by simp)
  | source :: targets, valid =>
      rcases exists_ways noAncilla valid performed with ⟨paths, ways, pathsEq, stitched⟩
      refine ⟨lattice.hasContact (region.paths.flatMap ends),
        stitched.clearAncilla_eq noAncilla plain, ?_, ?_⟩
      · intro index stitches
        rcases (Lattice.hasContact_iff plain).mp stitches with ⟨_, _, _, _, _, contact, position⟩
        rw [pathsEq] at contact
        exact isRequested_of_mem_ends valid own ways contact position
      · intro unhidden index requested
        rcases isRequested_iff.mp requested with ⟨entry, member, position⟩
        rcases unhidden.exists_gate valid ways member with ⟨gate, isGate, contact⟩
        rcases isGate.patch with ⟨patch, found, gateMember⟩
        rcases getElem?_of_indexAt? position with ⟨_, otherFound, located⟩
        cases found.symm.trans otherFound
        have gateFound := unhidden entry member patch found gate gateMember
        rw [Lattice.hasContact_iff plain]
        refine ⟨patch, gate, located, gateMember, isGate.border_ne_join, ?_, ?_⟩
        · rw [pathsEq]
          exact contact
        · rw [← position]
          exact indexAt?_eq_of_covers gateFound found (Lattice.mem_of_patchAt? found).2
            (Lattice.mem_of_patchAt? gateFound).2

/-- Two patches with gates to one free cell can be merged. -/
theorem exists_route_of_gates (within : lattice.Within) {target : Cell × Pauli}
    (valid : Valid lattice [source, target]) (numbered : Numbered lattice [source, target])
    {first last : Edge} (leaving : lattice.Gate source.1 source.2 first)
    (entering : lattice.Gate target.1 target.2 last)
    (facing : first.beyond = last.beyond)
    (inside : ∀ cell ∈ [source.1, first.cell, last.cell, target.1],
      lattice.grid.contains cell = true) :
    ∃ after region, lattice.route [source, target] = .ok (after, region) := by
  have toGate : Linked lattice [source, target] source.1 first.cell :=
    .toGate rfl leaving (inside _ (by simp)) (inside _ (by simp))
  have leave : Linked lattice [source, target] first.cell first.beyond :=
    .leave rfl leaving (inside _ (by simp))
  have enter : Linked lattice [source, target] last.beyond last.cell :=
    .enter List.mem_cons_self entering (inside _ (by simp))
  have fromGate : Linked lattice [source, target] last.cell target.1 :=
    .fromGate List.mem_cons_self entering (inside _ (by simp)) (inside _ (by simp))
  have reaches : ∀ entry ∈ [target],
      Relation.ReflTransGen (Linked lattice [source, target]) source.1 entry.1 := by
    rw [List.forall_mem_singleton]
    rw [← facing] at enter
    exact (((Relation.ReflTransGen.single toGate).tail leave).tail enter).tail fromGate
  rcases exists_lay within valid numbered reaches with ⟨region, after, performed, _⟩
  exact ⟨after, region, by rw [Lattice.route, performed]⟩

/-- Patches on two sides of a free cell and one below it. The patch listed last is hidden. -/
def acrossOneCell : Lattice :=
  ⟨[((Patch.bare .qubit none ⟨0, 0⟩).withCell ⟨1, 0⟩).withEdge ⟨⟨1, 0⟩, .right, .solid⟩,
    Patch.square ⟨3, 0⟩ .qubit .zero, Patch.square ⟨2, 1⟩ .qubit .zero,
    Patch.square ⟨0, 0⟩ .qubit .zero], 2, 4⟩

theorem clearAncilla_acrossOneCell :
    Unhidden acrossOneCell [(⟨0, 0⟩, .Z), (⟨3, 0⟩, .Z)] ∧ ∃ after region,
      acrossOneCell.route [(⟨0, 0⟩, .Z), (⟨3, 0⟩, .Z)] = .ok (after, region) ∧
      after.clearAncilla = { acrossOneCell with
        patches := acrossOneCell.patches.mapIdx fun index patch =>
          patch.forgottenIf (decide (index < 2)) } := by
  have unhidden : Unhidden acrossOneCell [(⟨0, 0⟩, .Z), (⟨3, 0⟩, .Z)] := by
    intro entry member patch found
    simp only [List.mem_cons, List.not_mem_nil, or_false] at member
    rcases member with rfl | rfl <;> cases found <;> decide
  have within : acrossOneCell.Within :=
    ⟨⟨by decide, by decide, by decide⟩, by simp only [Cell.Within]; decide⟩
  have isOpen : acrossOneCell.Open ⟨2, 0⟩ := by
    simp only [Lattice.Open]
    decide
  have leaving : acrossOneCell.Gate ⟨0, 0⟩ .Z ⟨⟨1, 0⟩, .right, .solid⟩ :=
    ⟨⟨_, rfl, by decide⟩, rfl, isOpen⟩
  have entering : acrossOneCell.Gate ⟨3, 0⟩ .Z ⟨⟨3, 0⟩, .left, .solid⟩ :=
    ⟨⟨_, rfl, by decide⟩, rfl, isOpen⟩
  have valid : Valid acrossOneCell [(⟨0, 0⟩, .Z), (⟨3, 0⟩, .Z)] :=
    ⟨by decide, by decide, by decide, by decide⟩
  rcases exists_route_of_gates within valid (numbered_of_small _ (by decide)) leaving entering rfl
    (by decide) with ⟨after, region, routed⟩
  rcases clearAncilla_of_route (by decide) (by decide) (by decide) routed with
    ⟨forgotten, cleared, onlyRequested, allRequested⟩
  refine ⟨unhidden, after, region, routed, ?_⟩
  have same : forgotten = isRequested acrossOneCell [(⟨0, 0⟩, .Z), (⟨3, 0⟩, .Z)] := by
    funext index
    exact Bool.eq_iff_iff.mpr ⟨onlyRequested index, allRequested unhidden index⟩
  rw [cleared, same]
  rfl

/-- A patch of the request keeps its state when its gate is on a cell where another patch is
found. -/
theorem state_kept_overlapping :
    overlapping.Plain ∧ ∃ after region,
      overlapping.route [(⟨0, 0⟩, .Z), (⟨3, 0⟩, .Z)] = .ok (after, region) ∧
      isRequested overlapping [(⟨0, 0⟩, .Z), (⟨3, 0⟩, .Z)] 1 = true ∧
      after.clearAncilla.patches[1]?.map Patch.state ≠ some (some (.idle .unknown)) := by
  have plain : overlapping.Plain := by
    intro patch member
    simp only [overlapping, List.mem_cons, List.not_mem_nil, or_false] at member
    rcases member with rfl | rfl | rfl <;>
      exact ⟨by decide, by decide, by decide, by decide⟩
  have within : overlapping.Within :=
    ⟨⟨by decide, by decide, by decide⟩, by simp only [Cell.Within]; decide⟩
  have isOpen : overlapping.Open ⟨2, 0⟩ := by
    simp only [Lattice.Open]
    decide
  have valid : Valid overlapping [(⟨0, 0⟩, .Z), (⟨3, 0⟩, .Z)] :=
    ⟨by decide, by decide, by decide, by decide⟩
  have leaving : overlapping.Gate ⟨0, 0⟩ .Z ⟨⟨1, 0⟩, .right, .solid⟩ :=
    ⟨⟨_, rfl, by decide⟩, rfl, isOpen⟩
  have entering : overlapping.Gate ⟨3, 0⟩ .Z ⟨⟨3, 0⟩, .left, .solid⟩ :=
    ⟨⟨_, rfl, by decide⟩, rfl, isOpen⟩
  rcases exists_route_of_gates within valid (numbered_of_small _ (by decide)) leaving entering rfl
    (by decide) with ⟨after, region, routed⟩
  refine ⟨plain, after, region, routed, by decide, ?_⟩
  have noAncilla : ∀ patch ∈ overlapping.patches, patch.role ≠ .ancilla := by decide
  have unstitched : ∀ patch ∈ overlapping.patches, ∀ edge ∈ patch.edges,
      edge.border.isStitched = false := by decide
  rcases exists_ways noAncilla valid (run_lay_of_route routed) with ⟨_, _, _, stitched⟩
  have untouched : overlapping.hasContact (region.paths.flatMap ends) 1 = false := by
    rw [← Bool.not_eq_true, Lattice.hasContact_iff unstitched]
    rintro ⟨patch, edge, located, member, _, _, position⟩
    cases located
    rw [List.mem_singleton.mp member] at position
    exact absurd position (by decide)
  rw [stitched.clearAncilla_eq noAncilla unstitched, List.getElem?_mapIdx, untouched]
  decide

end Route

end LatticeSurgery
