import LatticeSurgery.Proofs.Route.Merging

namespace LatticeSurgery

open Result

namespace Route

/-! # Consistent merge regions

A request that is granted leaves a region in which every stitched border and every join is
answered from the other side. -/

/-- A path of a region: it leads from the source to the target side by side, over cells that
were free and now hold one ancilla patch each. -/
structure IsLaidPath (original after : Lattice) (source target : Cell) (path : List Cell) :
    Prop where
  beside : path.IsChain Cell.Beside
  first : ∃ patch cell, after.patchAt? source = some patch ∧ path.head? = some cell ∧
    cell ∈ patch.cells
  last : ∃ patch cell, after.patchAt? target = some patch ∧ path.getLast? = some cell ∧
    cell ∈ patch.cells
  inner : ∀ cell ∈ inner path, original.isFree cell = true ∧
    ∃ patch, after.patchAt? cell = some patch ∧ patch.role = .ancilla ∧ patch.cells = [cell]

/-- The edge on the other side of an edge joins the cell there to the region. -/
def IsJoined (after : Lattice) (region : Region) (edge : Edge) : Prop :=
  edge.beyond ∈ region.ancillas ∧ ∃ patch, after.patchAt? edge.beyond = some patch ∧
    ⟨edge.beyond, edge.side.opposite, .join⟩ ∈ patch.edges

/-- The edge on the other side of an edge is a stitched border of a patch of the request. -/
def IsStitched (after : Lattice) (request : Request) (edge : Edge) : Prop :=
  ∃ entry ∈ request, ∃ patch, after.patchAt? entry.1 = some patch ∧ edge.beyond ∈ patch.cells ∧
    ∃ facing ∈ patch.edges, facing.cell = edge.beyond ∧ facing.side = edge.side.opposite ∧
      facing.border.isStitched = true

/-- A merge region whose paths, stitched borders and joins fit together. -/
structure Consistent (original : Lattice) (request : Request) (region : Region)
    (after : Lattice) : Prop where
  paths : ∀ source ∈ request.head?, List.Forall₂ (fun target path =>
    IsLaidPath original after source.1 target.1 path) request.tail region.paths
  distinct : region.ancillas.Nodup
  mem_ancillas : ∀ cell, cell ∈ region.ancillas ↔ ∃ path ∈ region.paths, cell ∈ inner path
  stitched : ∀ entry ∈ request, ∃ patch border, after.patchAt? entry.1 = some patch ∧
    Border.exposing? entry.2 = some border ∧
    (∃ edge ∈ patch.edges, edge.border.isStitched = true) ∧
    ∀ edge ∈ patch.edges, edge.border.isStitched = true → edge.border = border.stitched
  once : ∀ target ∈ request.tail, ∃ patch, after.patchAt? target.1 = some patch ∧
    (patch.edges.countP fun edge => edge.border.isStitched) = 1
  joins : ∀ patch ∈ after.patches, ∀ edge ∈ patch.edges, edge.border = .join →
    IsJoined after region edge ∨ IsStitched after request edge
  stitches : ∀ patch ∈ after.patches, ∀ edge ∈ patch.edges, edge.border.isStitched = true →
    IsJoined after region edge

def contactsOf (routes : List ((Cell × Pauli) × Span)) : List (Cell × Cell) :=
  routes.flatMap fun route => route.2.contacts

/-- A lattice on which the spans to all targets of a request are laid. -/
structure Routed (original : Lattice) (source : Cell × Pauli) (targets : Request)
    (routes : List ((Cell × Pauli) × Span)) (region : Region) (after : Lattice) : Prop where
  targets : routes.map Prod.fst = targets
  connects : ∀ route ∈ routes, route.2.Connects original source route.1
  merged : Merged original (contactsOf routes) region.ancillas after
  paths : region.paths = routes.map fun route => route.2.path
  mem_ancillas : ∀ cell, cell ∈ region.ancillas ↔ ∃ route ∈ routes, cell ∈ route.2.middle

variable {original after : Lattice} {source : Cell × Pauli} {targets : Request} {region : Region}

/-! ## Granted requests -/

theorem exists_routes (foremost : Foremost original (source :: targets))
    (valid : Valid original (source :: targets)) {some : Request} (among : some ⊆ targets)
    {paths : List (List Cell)} (ways : List.Forall₂ (fun target path => Search.IsWay
      (Linked original (source :: targets)) source.1 target.1 path) some paths) :
    ∃ routes : List ((Cell × Pauli) × Span), routes.map Prod.fst = some ∧
      (∀ route ∈ routes, route.2.Connects original source route.1) ∧
      List.Forall₂ (fun path route => ∀ between, Laid original between →
        trim between path = route.2.path) paths routes := by
  induction ways with
  | nil => exact ⟨[], rfl, List.forall_mem_nil _, .nil⟩
  | @cons target path rest _ way _ induction =>
      rcases List.cons_subset.mp among with ⟨member, among⟩
      rcases exists_span foremost valid member way with ⟨span, connects, trimmed⟩
      rcases induction among with ⟨routes, targetsEq, allConnect, trims⟩
      refine ⟨(target, span) :: routes, congrArg (target :: ·) targetsEq,
        List.forall_mem_cons.mpr ⟨connects, allConnect⟩, .cons (fun between laid => ?_) trims⟩
      rw [← trimmed]
      exact laid.trim_eq way.head way.last
        (mem_cells_of_representative? (valid.represents source List.mem_cons_self))
        (mem_cells_of_representative? (valid.represents target (.tail _ member)))

theorem exists_routed (plain : original.Plain) (separate : original.Apart)
    (valid : Valid original (source :: targets))
    (performed : (lay (source :: targets)).run original = .ok region after) :
    ∃ routes, Routed original source targets routes region after := by
  have checked := check_eq_ok_iff.mpr valid
  cases found : findPaths original (source :: targets) with
  | error failure =>
      rw [run_lay_of_findPaths checked found] at performed
      cases performed
  | ok paths =>
      rcases exists_routes (foremost_of_apart plain separate _) valid
        (List.Subset.refl targets) (isWay_of_findPaths found) with
        ⟨routes, targetsEq, connects, trims⟩
      rw [run_lay checked found] at performed
      rcases (Merged.refl original).layPaths plain separate connects trims performed with
        ⟨merged, pathsEq, memAncillas⟩
      refine ⟨routes, targetsEq, connects, merged, pathsEq, fun cell => ?_⟩
      rw [memAncillas, or_iff_right List.not_mem_nil]

/-! ## What stands on the cells -/

namespace Merged

variable {contacts : List (Cell × Cell)} {ancillas : List Cell}
  (merged : Merged original contacts ancillas after) (separate : original.Apart)

include merged separate

theorem patchAt?_of_patchAt? {cell : Cell} {patch : Patch}
    (found : original.patchAt? cell = some patch) :
    after.patchAt? cell = some (patch.stitchedIn contacts) := by
  rcases merged.patches with ⟨laid, split, _⟩
  rcases Lattice.mem_of_patchAt? found with ⟨member, covered⟩
  rw [(merged.apart separate).patchAt?_eq_some_iff, split]
  exact ⟨List.mem_append_left _ (List.mem_map_of_mem member), covered⟩

theorem exists_ancilla {cell : Cell} (member : cell ∈ ancillas) :
    ∃ patch, after.patchAt? cell = some patch ∧ patch.IsAncilla contacts cell := by
  rcases merged.patches with ⟨laid, split, areAncillas⟩
  rcases exists_of_mem_left areAncillas member with ⟨patch, patchMember, isAncilla⟩
  refine ⟨patch, ?_, isAncilla⟩
  rw [(merged.apart separate).patchAt?_eq_some_iff, split, isAncilla.cells]
  exact ⟨List.mem_append_right _ patchMember, List.mem_singleton_self cell⟩

end Merged

/-! ## Contacts and gates -/

/-- A route leaves or enters a patch of the request through a gate. -/
def Uses (routes : List ((Cell × Pauli) × Span)) (source entry : Cell × Pauli) (gate : Edge) :
    Prop :=
  ∃ route ∈ routes, entry = source ∧ gate = route.2.leaving ∨
    entry = route.1 ∧ gate = route.2.entering

theorem Uses.mem {routes : List ((Cell × Pauli) × Span)} {entry : Cell × Pauli} {gate : Edge}
    (uses : Uses routes source entry gate) : entry ∈ source :: routes.map Prod.fst := by
  rcases uses with ⟨route, member, ⟨rfl, _⟩ | ⟨rfl, _⟩⟩
  · exact List.mem_cons_self
  · exact List.mem_cons_of_mem _ (List.mem_map_of_mem member)

theorem Uses.gate {routes : List ((Cell × Pauli) × Span)}
    (connects : ∀ route ∈ routes, route.2.Connects original source route.1) {entry : Cell × Pauli}
    {gate : Edge} (uses : Uses routes source entry gate) : original.Gate entry.1 entry.2 gate := by
  rcases uses with ⟨route, member, ⟨rfl, rfl⟩ | ⟨rfl, rfl⟩⟩
  · exact (connects route member).leaving
  · exact (connects route member).entering

/-- All patches of a request are used when there is a target. -/
theorem exists_uses_of_mem {routes : List ((Cell × Pauli) × Span)} (several : routes ≠ [])
    {entry : Cell × Pauli} (member : entry ∈ source :: routes.map Prod.fst) :
    ∃ gate, Uses routes source entry gate := by
  cases List.mem_cons.mp member with
  | inl isSource =>
      rcases List.exists_mem_of_ne_nil routes several with ⟨route, routeMember⟩
      exact ⟨route.2.leaving, route, routeMember, .inl ⟨isSource, rfl⟩⟩
  | inr isTarget =>
      rcases List.mem_map.mp isTarget with ⟨route, routeMember, rfl⟩
      exact ⟨route.2.entering, route, routeMember, .inr ⟨rfl, rfl⟩⟩

namespace Routed

variable {routes : List ((Cell × Pauli) × Span)}
  (routed : Routed original source targets routes region after)

include routed

theorem mem_of_uses {entry : Cell × Pauli} {gate : Edge} (uses : Uses routes source entry gate) :
    entry ∈ source :: targets := by
  rw [← routed.targets]
  exact uses.mem

theorem gate_of_uses {entry : Cell × Pauli} {gate : Edge} (uses : Uses routes source entry gate) :
    original.Gate entry.1 entry.2 gate :=
  uses.gate routed.connects

omit routed in
theorem contact_of_uses {entry : Cell × Pauli} {gate : Edge}
    (uses : Uses routes source entry gate) : (gate.cell, gate.beyond) ∈ contactsOf routes := by
  rcases uses with ⟨route, member, ⟨_, rfl⟩ | ⟨_, rfl⟩⟩
  · exact List.mem_flatMap.mpr ⟨route, member, List.mem_cons_self⟩
  · exact List.mem_flatMap.mpr ⟨route, member, List.mem_cons_of_mem _ List.mem_cons_self⟩

theorem beyond_mem_of_uses {entry : Cell × Pauli} {gate : Edge}
    (uses : Uses routes source entry gate) : gate.beyond ∈ region.ancillas := by
  rcases uses with ⟨route, member, ⟨_, rfl⟩ | ⟨_, rfl⟩⟩
  · exact (routed.mem_ancillas _).mpr
      ⟨route, member, List.mem_of_head? (routed.connects route member).head⟩
  · exact (routed.mem_ancillas _).mpr
      ⟨route, member, List.mem_of_getLast? (routed.connects route member).last⟩

theorem contacts_symm {cell other : Cell} (contact : (cell, other) ∈ contactsOf routes) :
    (other, cell) ∈ contactsOf routes := by
  rcases List.mem_flatMap.mp contact with ⟨route, member, contact⟩
  exact List.mem_flatMap.mpr ⟨route, member, (routed.connects route member).contacts_symm contact⟩

/-- Contacts are made by ancilla patches and through gates. -/
theorem contact_cases {cell other : Cell} (contact : (cell, other) ∈ contactsOf routes) :
    cell ∈ region.ancillas ∨
      ∃ entry gate, Uses routes source entry gate ∧ cell = gate.cell ∧ other = gate.beyond := by
  rcases List.mem_flatMap.mp contact with ⟨route, member, contact⟩
  simp only [Span.contacts, List.mem_cons, Prod.mk.injEq] at contact
  rcases contact with leaving | entering | joins
  · exact .inr ⟨source, route.2.leaving, ⟨route, member, .inl ⟨rfl, rfl⟩⟩, leaving⟩
  · exact .inr ⟨route.1, route.2.entering, ⟨route, member, .inr ⟨rfl, rfl⟩⟩, entering⟩
  · have isInner := mem_inner_of_mem_joinsAlong joins
    rw [Span.inner_path] at isInner
    exact .inl ((routed.mem_ancillas cell).mpr ⟨route, member, isInner⟩)

variable (plain : original.Plain) (separate : original.Apart)

include separate

/-- A contact from an ancilla patch across an edge answers the edge by a join. -/
theorem isJoined_of_contact {edge : Edge} (member : edge.beyond ∈ region.ancillas)
    (contact : (edge.beyond, edge.cell) ∈ contactsOf routes) : IsJoined after region edge := by
  rcases routed.merged.exists_ancilla separate member with ⟨patch, found, isAncilla⟩
  refine ⟨member, patch, found, (isAncilla.mem_edges _).mpr ⟨rfl, rfl, ?_⟩⟩
  rw [Edge.beyond, Edge.beyond, Cell.shift_opposite]
  exact contact

include plain

/-- A border of a patch that was there has a contact when it is used as a gate. -/
theorem exists_uses {patch : Patch} (patchMember : patch ∈ original.patches) {edge : Edge}
    (member : edge ∈ patch.edges) (contact : (edge.cell, edge.beyond) ∈ contactsOf routes) :
    ∃ entry, Uses routes source entry edge ∧ original.patchAt? entry.1 = some patch := by
  have own := (plain patch patchMember).own edge member
  have found := separate.patchAt?_eq_some_iff.mpr ⟨patchMember, own⟩
  cases routed.contact_cases contact with
  | inl isAncilla =>
      exact absurd (Lattice.mem_cells_of_patchAt? found)
        (Lattice.isFree_iff.mp (routed.merged.free _ isAncilla))
  | inr through =>
      rcases through with ⟨entry, gate, uses, sameCell, sameBeyond⟩
      have isGate := routed.gate_of_uses uses
      have entryFound : original.patchAt? entry.1 = some patch := by
        rw [← isGate.patchAt?_eq plain separate, ← sameCell]
        exact found
      rcases isGate.patch with ⟨gatePatch, gateFound, gateMember⟩
      rw [entryFound, Option.some.injEq] at gateFound
      rw [← gateFound] at gateMember
      have sameSide : edge.side = gate.side := by
        rw [Edge.beyond, Edge.beyond, sameCell] at sameBeyond
        exact gate.cell.shift_injective sameBeyond
      have same : edge = gate := List.inj_on_of_nodup_map (plain patch patchMember).single member
        gateMember (Prod.ext sameCell sameSide)
      exact ⟨entry, same ▸ uses, entryFound⟩

variable (valid : Valid original (source :: targets))

include valid

/-- The stitched borders of a patch of the request are the gates that are used. -/
theorem contact_iff {entry : Cell × Pauli} (entryMember : entry ∈ source :: targets)
    {patch : Patch} (found : original.patchAt? entry.1 = some patch) {edge : Edge}
    (member : edge ∈ patch.edges) :
    (edge.cell, edge.beyond) ∈ contactsOf routes ↔ Uses routes source entry edge := by
  constructor
  · intro contact
    rcases routed.exists_uses plain separate
      (Lattice.mem_of_patchAt? found).1 member contact with ⟨other, uses, otherFound⟩
    have same := valid.eq_of_patchAt? (routed.mem_of_uses uses) entryMember
      (otherFound.trans found.symm)
    exact same ▸ uses
  · exact contact_of_uses

omit plain separate in
/-- A target is entered through one gate. -/
theorem uses_iff {route : (Cell × Pauli) × Span} (member : route ∈ routes) {gate : Edge} :
    Uses routes source route.1 gate ↔ gate = route.2.entering := by
  have isTarget : route.1 ∈ targets := by
    rw [← routed.targets]
    exact List.mem_map_of_mem member
  constructor
  · intro uses
    rcases uses with ⟨other, otherMember, ⟨isSource, _⟩ | ⟨same, entering⟩⟩
    · exact absurd (congrArg Prod.fst isSource.symm) (valid.ne_of_mem isTarget)
    · have distinct : (routes.map Prod.fst).Nodup := by
        have distinct := valid.distinct
        rw [List.map_cons, List.nodup_cons, ← routed.targets] at distinct
        exact distinct.2.of_map
      rw [entering, List.inj_on_of_nodup_map distinct member otherMember same]
  · intro entering
    exact ⟨route, member, .inr ⟨rfl, entering⟩⟩

/-! ## The region as a whole -/

omit valid in
theorem isLaidPath {route : (Cell × Pauli) × Span} (member : route ∈ routes) :
    IsLaidPath original after source.1 route.1.1 route.2.path := by
  have connects := routed.connects route member
  rcases connects.leaving.patch with ⟨patch, found, leaving⟩
  rcases connects.entering.patch with ⟨target, targetFound, entering⟩
  refine ⟨connects.beside, ⟨_, _, routed.merged.patchAt?_of_patchAt? separate found, rfl, ?_⟩,
    ⟨_, route.2.entering.cell, routed.merged.patchAt?_of_patchAt? separate targetFound, ?_, ?_⟩, ?_⟩
  · exact (plain patch (Lattice.mem_of_patchAt? found).1).own _ leaving
  · rw [Span.path, ← List.cons_append, List.getLast?_concat]
  · exact (plain target (Lattice.mem_of_patchAt? targetFound).1).own _ entering
  · intro cell isInner
    rw [Span.inner_path] at isInner
    rcases routed.merged.exists_ancilla separate
      ((routed.mem_ancillas cell).mpr ⟨route, member, isInner⟩) with
      ⟨ancilla, ancillaFound, isAncilla⟩
    exact ⟨(connects.isOpen cell isInner).2, ancilla, ancillaFound, isAncilla.role,
      isAncilla.cells⟩

theorem exists_stitched {entry : Cell × Pauli} (entryMember : entry ∈ source :: targets) :
    ∃ patch border, after.patchAt? entry.1 = some patch ∧ Border.exposing? entry.2 = some border ∧
      (∃ edge ∈ patch.edges, edge.border.isStitched = true) ∧
      ∀ edge ∈ patch.edges, edge.border.isStitched = true → edge.border = border.stitched := by
  have used : ∃ gate, Uses routes source entry gate := by
    apply exists_uses_of_mem
    · have several := valid.several
      rw [List.length_cons, ← routed.targets, List.length_map] at several
      exact List.ne_nil_of_length_pos (by omega)
    · rw [routed.targets]
      exact entryMember
  rcases used with ⟨gate, uses⟩
  have isGate := routed.gate_of_uses uses
  rcases isGate.patch with ⟨patch, found, gateMember⟩
  have borders := (plain patch (Lattice.mem_of_patchAt? found).1).border
  refine ⟨_, gate.border, routed.merged.patchAt?_of_patchAt? separate found, isGate.exposes,
    ⟨_, List.mem_map_of_mem gateMember, ?_⟩, ?_⟩
  · exact (Edge.isStitched_stitchedIn (borders gate gateMember)).mpr (contact_of_uses uses)
  · intro edge member isStitched
    rcases List.mem_map.mp member with ⟨before, beforeMember, rfl⟩
    have contact := (Edge.isStitched_stitchedIn (borders before beforeMember)).mp isStitched
    have beforeUses := (routed.contact_iff plain separate valid entryMember found
      beforeMember).mp contact
    have same : before.border = gate.border := Option.some.inj
      ((routed.gate_of_uses beforeUses).exposes.symm.trans isGate.exposes)
    rw [Edge.stitchedIn, if_pos contact, ← same]
    rfl

theorem countP_isStitched {target : Cell × Pauli} (isTarget : target ∈ targets) :
    ∃ patch, after.patchAt? target.1 = some patch ∧
      (patch.edges.countP fun edge => edge.border.isStitched) = 1 := by
  have among := isTarget
  rw [← routed.targets] at among
  rcases List.mem_map.mp among with ⟨route, member, rfl⟩
  rcases (routed.connects route member).entering.patch with ⟨patch, found, gateMember⟩
  have isPlain := plain patch (Lattice.mem_of_patchAt? found).1
  refine ⟨_, routed.merged.patchAt?_of_patchAt? separate found, ?_⟩
  have isGate : ∀ edge ∈ patch.edges,
      (edge.stitchedIn (contactsOf routes)).border.isStitched = true ↔
        (edge == route.2.entering) = true := by
    intro edge edgeMember
    rw [Edge.isStitched_stitchedIn (isPlain.border edge edgeMember), beq_iff_eq,
      ← routed.uses_iff valid member]
    exact routed.contact_iff plain separate valid (.tail _ isTarget) found edgeMember
  calc (patch.stitchedIn (contactsOf routes)).edges.countP (fun edge => edge.border.isStitched)
      = patch.edges.countP fun edge =>
          (edge.stitchedIn (contactsOf routes)).border.isStitched := List.countP_map
    _ = patch.edges.count route.2.entering := List.countP_congr isGate
    _ = 1 := List.count_eq_one_of_mem isPlain.single.of_map gateMember

omit valid in
theorem isJoined_or_isStitched {patch : Patch} (patchMember : patch ∈ after.patches) {edge : Edge}
    (member : edge ∈ patch.edges) (isJoin : edge.border = .join) :
    IsJoined after region edge ∨ IsStitched after (source :: targets) edge := by
  rcases routed.merged.patches with ⟨laid, split, areAncillas⟩
  rw [split] at patchMember
  cases List.mem_append.mp patchMember with
  | inl old =>
      rcases List.mem_map.mp old with ⟨before, beforeMember, rfl⟩
      rcases List.mem_map.mp member with ⟨beforeEdge, edgeMember, rfl⟩
      have border := (plain before beforeMember).border beforeEdge edgeMember
      exact absurd isJoin (Edge.border_stitchedIn_ne_join border.2)
  | inr new =>
      rcases exists_of_mem_right areAncillas new with ⟨cell, _, isAncilla⟩
      rcases (isAncilla.mem_edges edge).mp member with ⟨own, _, contact⟩
      subst own
      have answer := routed.contacts_symm contact
      cases routed.contact_cases answer with
      | inl isInner => exact .inl (routed.isJoined_of_contact separate isInner answer)
      | inr through =>
          rcases through with ⟨entry, gate, uses, sameCell, sameBeyond⟩
          have isGate := routed.gate_of_uses uses
          rcases isGate.patch with ⟨gatePatch, found, gateMember⟩
          have isPlain := plain gatePatch (Lattice.mem_of_patchAt? found).1
          refine .inr ⟨entry, routed.mem_of_uses uses, _,
            routed.merged.patchAt?_of_patchAt? separate found, ?_,
            gate.stitchedIn (contactsOf routes), List.mem_map_of_mem gateMember, ?_, ?_, ?_⟩
          · rw [sameCell]
            exact isPlain.own gate gateMember
          · rw [Edge.cell_stitchedIn, sameCell]
          · rw [Edge.side_stitchedIn]
            apply gate.cell.shift_injective
            have back := edge.cell.shift_opposite edge.side
            rw [← Edge.beyond, sameCell, sameBeyond] at back
            exact back.symm
          · exact (Edge.isStitched_stitchedIn (isPlain.border gate gateMember)).mpr
              (contact_of_uses uses)

omit valid in
theorem isJoined_of_isStitched {patch : Patch} (patchMember : patch ∈ after.patches) {edge : Edge}
    (member : edge ∈ patch.edges) (isStitched : edge.border.isStitched = true) :
    IsJoined after region edge := by
  rcases routed.merged.patches with ⟨laid, split, areAncillas⟩
  rw [split] at patchMember
  cases List.mem_append.mp patchMember with
  | inl old =>
      rcases List.mem_map.mp old with ⟨before, beforeMember, rfl⟩
      rcases List.mem_map.mp member with ⟨beforeEdge, edgeMember, rfl⟩
      have contact := (Edge.isStitched_stitchedIn
        ((plain before beforeMember).border beforeEdge edgeMember)).mp isStitched
      rcases routed.exists_uses plain separate beforeMember edgeMember contact with ⟨entry, uses, _⟩
      apply routed.isJoined_of_contact separate
      · rw [Edge.beyond_stitchedIn]
        exact routed.beyond_mem_of_uses uses
      · rw [Edge.beyond_stitchedIn, Edge.cell_stitchedIn]
        exact routed.contacts_symm contact
  | inr new =>
      rcases exists_of_mem_right areAncillas new with ⟨cell, _, isAncilla⟩
      rw [((isAncilla.mem_edges edge).mp member).2.1] at isStitched
      cases isStitched

theorem consistent : Consistent original (source :: targets) region after where
  paths first isFirst := by
    rw [← Option.some.inj isFirst, List.tail_cons, ← routed.targets, routed.paths,
      List.forall₂_map_left_iff, List.forall₂_map_right_iff, List.forall₂_same]
    exact fun route member => routed.isLaidPath plain separate member
  distinct := routed.merged.distinct
  mem_ancillas cell := by
    rw [routed.mem_ancillas, routed.paths]
    simp
  stitched _ member := routed.exists_stitched plain separate valid member
  once _ member := routed.countP_isStitched plain separate valid member
  joins _ patchMember _ member isJoin :=
    routed.isJoined_or_isStitched plain separate patchMember member isJoin
  stitches _ patchMember _ member isStitched :=
    routed.isJoined_of_isStitched plain separate patchMember member isStitched

end Routed

/-- Where no cell belongs to two patches, a request that is granted leaves a consistent
region. -/
theorem lay_consistent {lattice : Lattice} (plain : lattice.Plain) (separate : lattice.Apart)
    {request : Request} (performed : (lay request).run lattice = .ok region after) :
    Consistent lattice request region after := by
  have valid : Valid lattice request := by
    by_contra invalid
    rcases exists_lay_of_not_valid invalid with ⟨error, refused⟩
    rw [refused] at performed
    cases performed
  match request, valid with
  | [], valid => exact absurd valid.several (by simp)
  | source :: targets, valid =>
      rcases exists_routed plain separate valid performed with ⟨routes, routed⟩
      exact routed.consistent plain separate valid

/-- A patch of two cells, with a patch across the way from it and one beside the way. -/
def besideTheWay : Lattice :=
  ⟨[((Patch.bare .qubit none ⟨0, 0⟩).withCell ⟨1, 0⟩).withEdge ⟨⟨1, 0⟩, .right, .solid⟩,
    Patch.square ⟨4, 0⟩ .qubit .zero, Patch.square ⟨2, 1⟩ .qubit .zero], 2, 5⟩

/-- The paths to both targets share their first free cell. -/
theorem lay_consistent_besideTheWay :
    besideTheWay.Plain ∧ besideTheWay.Apart ∧ ∃ region after,
      (lay [(⟨0, 0⟩, .Z), (⟨4, 0⟩, .Z), (⟨2, 1⟩, .X)]).run besideTheWay = .ok region after ∧
      Consistent besideTheWay [(⟨0, 0⟩, .Z), (⟨4, 0⟩, .Z), (⟨2, 1⟩, .X)] region after := by
  have plain : besideTheWay.Plain := by
    intro patch member
    simp only [besideTheWay, List.mem_cons, List.not_mem_nil, or_false] at member
    rcases member with rfl | rfl | rfl <;>
      exact ⟨by decide, by decide, by decide, by decide⟩
  have separate : besideTheWay.Apart := by
    simp only [Lattice.Apart, List.Disjoint]
    decide
  have within : besideTheWay.Within :=
    ⟨⟨by decide, by decide, by decide⟩, by simp only [Cell.Within]; decide⟩
  have isOpen : ∀ col ∈ [2, 3], besideTheWay.Open ⟨col, 0⟩ := by
    simp only [Lattice.Open]
    decide
  have leaving : besideTheWay.Gate ⟨0, 0⟩ .Z ⟨⟨1, 0⟩, .right, .solid⟩ :=
    ⟨⟨_, rfl, by decide⟩, rfl, isOpen 2 (by decide)⟩
  have across : besideTheWay.Gate ⟨4, 0⟩ .Z ⟨⟨4, 0⟩, .left, .solid⟩ :=
    ⟨⟨_, rfl, by decide⟩, rfl, isOpen 3 (by decide)⟩
  have beside : besideTheWay.Gate ⟨2, 1⟩ .X ⟨⟨2, 1⟩, .top, .dashed⟩ :=
    ⟨⟨_, rfl, by decide⟩, rfl, isOpen 2 (by decide)⟩
  have reaches : ∀ target ∈ [((⟨4, 0⟩, .Z) : Cell × Pauli), (⟨2, 1⟩, .X)],
      Relation.ReflTransGen (Linked besideTheWay [(⟨0, 0⟩, .Z), (⟨4, 0⟩, .Z), (⟨2, 1⟩, .X)])
        ⟨0, 0⟩ target.1 := by
    have start := (Relation.ReflTransGen.single (r := Linked besideTheWay
      [(⟨0, 0⟩, .Z), (⟨4, 0⟩, .Z), (⟨2, 1⟩, .X)])
      (.toGate rfl leaving (by decide) (by decide))).tail (.leave rfl leaving (by decide))
    intro target member
    simp only [List.mem_cons, List.not_mem_nil, or_false] at member
    rcases member with rfl | rfl
    · exact (start.tail (.adjacent .right (isOpen 2 (by decide)) (isOpen 3 (by decide)))).tail
        (.enter List.mem_cons_self across (by decide))
    · exact start.tail (.enter (List.mem_cons_of_mem _ List.mem_cons_self) beside (by decide))
  rcases exists_lay within ⟨by decide, by decide, by decide, by decide⟩
    (numbered_of_small _ (by decide)) reaches with ⟨region, after, performed, _⟩
  exact ⟨plain, separate, region, after, performed, lay_consistent plain separate performed⟩

/-! Two patches on one cell. The patch that is listed first hides the border that the way
leaves through. -/

def overlapping : Lattice :=
  ⟨[Patch.bare .qubit none ⟨1, 0⟩,
    ((Patch.bare .qubit none ⟨0, 0⟩).withCell ⟨1, 0⟩).withEdge ⟨⟨1, 0⟩, .right, .solid⟩,
    Patch.square ⟨3, 0⟩ .qubit .zero], 1, 4⟩

private theorem eq_of_linked_overlapping {cell next : Cell}
    (linked : Linked overlapping [(⟨0, 0⟩, .Z), (⟨3, 0⟩, .Z)] cell next) (start : cell = ⟨0, 0⟩) :
    next = ⟨1, 0⟩ := by
  have leaving {edge : Edge} {basis : Pauli} (gate : overlapping.Gate ⟨0, 0⟩ basis edge) :
      edge = ⟨⟨1, 0⟩, .right, .solid⟩ := by
    rcases gate.patch with ⟨patch, found, member⟩
    cases found
    exact List.mem_singleton.mp member
  have entering {edge : Edge} {basis : Pauli} (gate : overlapping.Gate ⟨3, 0⟩ basis edge) :
      edge.cell ≠ ⟨0, 0⟩ ∧ edge.beyond ≠ ⟨0, 0⟩ := by
    rcases gate.patch with ⟨patch, found, member⟩
    cases found
    simp only [Patch.square, Patch.bordered, List.mem_cons, List.not_mem_nil, or_false] at member
    rcases member with rfl | rfl | rfl | rfl <;> decide
  cases linked with
  | adjacent side isOpen _ =>
      rw [start] at isOpen
      exact absurd isOpen.2 (by decide)
  | toGate isHead gate =>
      cases isHead
      rw [leaving gate]
  | leave isHead gate =>
      cases isHead
      rw [leaving gate] at start
      cases start
  | enter isTarget gate =>
      cases List.mem_singleton.mp isTarget
      exact absurd start (entering gate).2
  | fromGate isTarget gate =>
      cases List.mem_singleton.mp isTarget
      exact absurd start (entering gate).1

/-- Between its ends, a path across the lattice has the cell that the two patches share. -/
private theorem exists_inner_overlapping {path : List Cell}
    (chain : path.IsChain (Linked overlapping [(⟨0, 0⟩, .Z), (⟨3, 0⟩, .Z)]))
    (isFirst : path.head? = some ⟨0, 0⟩) (isLast : path.getLast? = some ⟨3, 0⟩) :
    ∃ cell ∈ inner path, overlapping.isFree cell = false := by
  cases path with
  | nil => cases isFirst
  | cons _ rest =>
      have start := Option.some.inj isFirst
      cases rest with
      | nil =>
          rw [List.getLast?_singleton, start] at isLast
          cases isLast
      | cons second rest =>
          have same := eq_of_linked_overlapping (List.isChain_cons_cons.mp chain).1 start
          cases rest with
          | nil =>
              rw [same] at isLast
              cases isLast
          | cons third rest =>
              refine ⟨second, List.mem_cons_self, ?_⟩
              rw [same]
              decide

theorem not_consistent_overlapping :
    overlapping.Plain ∧ ∃ region after,
      (lay [(⟨0, 0⟩, .Z), (⟨3, 0⟩, .Z)]).run overlapping = .ok region after ∧
      ¬ Consistent overlapping [(⟨0, 0⟩, .Z), (⟨3, 0⟩, .Z)] region after := by
  have plain : overlapping.Plain := by
    intro patch member
    simp only [overlapping, List.mem_cons, List.not_mem_nil, or_false] at member
    rcases member with rfl | rfl | rfl <;>
      exact ⟨by decide, by decide, by decide, by decide⟩
  have within : overlapping.Within :=
    ⟨⟨by decide, by decide, by decide⟩, by simp only [Cell.Within]; decide⟩
  have isOpen : overlapping.Open ⟨2, 0⟩ := by
    simp only [Lattice.Open]
    decide
  have leaving : overlapping.Gate ⟨0, 0⟩ .Z ⟨⟨1, 0⟩, .right, .solid⟩ :=
    ⟨⟨_, rfl, by decide⟩, rfl, isOpen⟩
  have entering : overlapping.Gate ⟨3, 0⟩ .Z ⟨⟨3, 0⟩, .left, .solid⟩ :=
    ⟨⟨_, rfl, by decide⟩, rfl, isOpen⟩
  have reaches : ∀ target ∈ [((⟨3, 0⟩, .Z) : Cell × Pauli)], Relation.ReflTransGen
      (Linked overlapping [(⟨0, 0⟩, .Z), (⟨3, 0⟩, .Z)]) ⟨0, 0⟩ target.1 := by
    intro target member
    rw [List.mem_singleton.mp member]
    exact ((Relation.ReflTransGen.single (.toGate rfl leaving (by decide) (by decide))).tail
      (.leave rfl leaving (by decide))).tail (.enter List.mem_cons_self entering (by decide))
  rcases exists_lay within ⟨by decide, by decide, by decide, by decide⟩
    (numbered_of_small _ (by decide)) reaches with ⟨region, after, performed, _, routes⟩
  refine ⟨plain, region, after, performed, fun consistent => ?_⟩
  have laid := consistent.paths _ rfl
  generalize region.paths = paths at routes laid
  cases routes with
  | @cons _ path _ _ isRoute _ =>
      rcases isRoute with ⟨whole, shortest, trimmed⟩
      cases laid with
      | cons isLaid _ =>
          -- Only its representative counts as a cell of the source, so the path starts there and
          -- runs over the cell that the two patches share.
          have represented : ∀ cell ∈ overlapping.cells,
              (overlapping.representative? cell = some ⟨0, 0⟩ → cell = ⟨0, 0⟩) ∧
              (overlapping.representative? cell = some ⟨3, 0⟩ → cell = ⟨3, 0⟩) := by
            decide
          rcases trimmed.head with ⟨first, isFirst, firstIn⟩
          rcases trimmed.last with ⟨last, isLast, lastIn⟩
          rw [(represented first (mem_cells_of_representative? firstIn)).1 firstIn] at isFirst
          rw [(represented last (mem_cells_of_representative? lastIn)).2 lastIn] at isLast
          rcases trimmed.split with ⟨front, back, split, _⟩
          have chain : path.IsChain (Linked overlapping [(⟨0, 0⟩, .Z), (⟨3, 0⟩, .Z)]) := by
            have whole := shortest.chain
            rw [split, List.append_assoc] at whole
            exact (List.isChain_append.mp (List.isChain_append.mp whole).2.1).1
          rcases exists_inner_overlapping chain isFirst isLast with ⟨cell, isInner, covered⟩
          rw [(isLaid.inner cell isInner).1] at covered
          exact Bool.noConfusion covered

end Route

end LatticeSurgery
