import LatticeSurgery.Proofs.Lattice
import LatticeSurgery.Proofs.Route.Search

namespace LatticeSurgery

open Result

/-! # Links of a search

A search goes from the first patch of a request through open cells to the other patches. It
leaves and enters patches through borders that expose the operators of the request. -/

/-- The cell on the other side of an edge. -/
def Edge.beyond (edge : Edge) : Cell := edge.cell.shift edge.side

theorem Edge.across_eq_ok {edge : Edge} {cell : Cell} (found : edge.across = .ok cell) :
    cell = edge.beyond :=
  Cell.neighbour_eq_ok found

namespace Lattice

variable {lattice : Lattice}

theorem isFree_iff {cell : Cell} : lattice.isFree cell = true ↔ cell ∉ lattice.cells := by
  simp [isFree, patchAt?, Patch.covers, cells]

theorem mem_of_patchAt? {cell : Cell} {patch : Patch} (found : lattice.patchAt? cell = some patch) :
    patch ∈ lattice.patches ∧ cell ∈ patch.cells := by
  refine ⟨List.mem_of_find?_eq_some found, ?_⟩
  simpa [Patch.covers] using List.find?_some found

theorem mem_cells_of_patchAt? {cell : Cell} {patch : Patch}
    (found : lattice.patchAt? cell = some patch) : cell ∈ lattice.cells :=
  List.mem_flatMap.mpr ⟨patch, mem_of_patchAt? found⟩

/-- A free cell of the grid. -/
def Open (lattice : Lattice) (cell : Cell) : Prop :=
  lattice.grid.contains cell = true ∧ lattice.isFree cell = true

theorem isOpen_eq_ok {cell : Cell} {isOpen : Bool}
    (computed : Route.isOpen lattice cell = .ok isOpen) :
    isOpen = true ↔ lattice.Open cell := by
  rw [Route.isOpen, bind_eq_ok] at computed
  rcases computed with ⟨inside, bounded, made⟩
  rw [pure_eq_ok, Except.ok.injEq, inBounds_eq_ok bounded] at made
  rw [← made, Bool.and_eq_true, Open]

theorem Sized.exists_isOpen (sized : lattice.Sized) (cell : Cell) :
    ∃ isOpen, Route.isOpen lattice cell = .ok isOpen := by
  rcases sized.exists_inBounds cell with ⟨inside, bounded⟩
  rw [Route.isOpen, bounded]
  exact ⟨_, rfl⟩

/-- A border of the patch at a cell that exposes the operator and has an open cell
beyond it. -/
structure Gate (lattice : Lattice) (cell : Cell) (basis : Pauli) (edge : Edge) : Prop where
  patch : ∃ patch, lattice.patchAt? cell = some patch ∧ edge ∈ patch.edges
  exposes : Border.exposing? basis = some edge.border
  isOpen : lattice.Open edge.beyond

end Lattice

namespace Route

variable {lattice : Lattice} {request : Request}

/-- The steps of a search for a request. Open cells are linked to their open neighbours. A
gate of the first patch links the representative to the cell of the gate and that cell to the
one beyond, and a gate of another patch links the same cells in the opposite direction. Only
links between cells of the grid count. -/
inductive Linked (lattice : Lattice) (request : Request) : Cell → Cell → Prop
  | adjacent {cell : Cell} (side : Side) : lattice.Open cell → lattice.Open (cell.shift side) →
      Linked lattice request cell (cell.shift side)
  | toGate {source : Cell} {basis : Pauli} {edge : Edge} : request.head? = some (source, basis) →
      lattice.Gate source basis edge → lattice.grid.contains source = true →
      lattice.grid.contains edge.cell = true → Linked lattice request source edge.cell
  | leave {source : Cell} {basis : Pauli} {edge : Edge} : request.head? = some (source, basis) →
      lattice.Gate source basis edge → lattice.grid.contains edge.cell = true →
      Linked lattice request edge.cell edge.beyond
  | enter {target : Cell} {basis : Pauli} {edge : Edge} : (target, basis) ∈ request.tail →
      lattice.Gate target basis edge → lattice.grid.contains edge.cell = true →
      Linked lattice request edge.beyond edge.cell
  | fromGate {target : Cell} {basis : Pauli} {edge : Edge} : (target, basis) ∈ request.tail →
      lattice.Gate target basis edge → lattice.grid.contains edge.cell = true →
      lattice.grid.contains target = true → Linked lattice request edge.cell target

theorem Linked.contains {cell next : Cell} (linked : Linked lattice request cell next) :
    lattice.grid.contains cell = true ∧ lattice.grid.contains next = true := by
  cases linked with
  | adjacent side isOpen nextOpen => exact ⟨isOpen.1, nextOpen.1⟩
  | toGate _ _ inside gateInside => exact ⟨inside, gateInside⟩
  | leave _ gate inside => exact ⟨inside, gate.isOpen.1⟩
  | enter _ gate inside => exact ⟨gate.isOpen.1, inside⟩
  | fromGate _ _ gateInside inside => exact ⟨gateInside, inside⟩

/-! ## Links of patches -/

/-- The hops between a representative, the cell of an edge and the cell beyond. -/
def hops (representative : Cell) (edge : Edge) : List (Cell × Cell) :=
  [(representative, edge.cell), (edge.cell, edge.beyond)]

theorem mem_edgeLinks {representative : Cell} {border : Border} {outward : Bool} {edge : Edge}
    {links : List (Cell × Cell)}
    (computed : edgeLinks lattice representative border outward edge = .ok links)
    (link : Cell × Cell) :
    link ∈ links ↔ border = edge.border ∧ lattice.Open edge.beyond ∧
      (if outward then link else link.swap) ∈ hops representative edge := by
  rw [edgeLinks] at computed
  by_cases same : edge.border = border
  · rw [if_neg (not_not.mpr same), bind_eq_ok] at computed
    rcases computed with ⟨neighbour, found, computed⟩
    rcases bind_eq_ok.mp computed with ⟨isOpen, opened, made⟩
    rw [Edge.across_eq_ok found] at opened made
    rw [← Lattice.isOpen_eq_ok opened]
    cases isOpen with
    | false =>
        have none : links = [] := (Except.ok.inj made).symm
        simp [none]
    | true =>
        cases outward with
        | false =>
            have all : links = (hops representative edge).map Prod.swap :=
              (Except.ok.inj made).symm
            simp [all, hops, same, Prod.ext_iff, and_comm]
        | true =>
            have all : links = hops representative edge := (Except.ok.inj made).symm
            simp [all, same]
  · rw [if_pos same] at computed
    have none : links = [] := (Except.ok.inj computed).symm
    simp [none, Ne.symm same]

theorem exists_edgeLinks (sized : lattice.Sized) (representative : Cell) (border : Border)
    (outward : Bool) {edge : Edge} (within : edge.cell.Within) :
    ∃ links, edgeLinks lattice representative border outward edge = .ok links := by
  rw [edgeLinks]
  split
  · exact ⟨_, rfl⟩
  · rcases sized.exists_isOpen (edge.cell.shift edge.side) with ⟨isOpen, opened⟩
    rw [Edge.across, within.neighbour, ok_bind, opened, ok_bind]
    cases isOpen with
    | false => exact ⟨_, rfl⟩
    | true => exact ⟨_, rfl⟩

theorem mem_entryLinks {entry : (Cell × Pauli) × Nat} {links : List (Cell × Cell)}
    (computed : entryLinks lattice entry = .ok links) (link : Cell × Cell) :
    link ∈ links ↔ ∃ edge, lattice.Gate entry.1.1 entry.1.2 edge ∧
      (if entry.2 = 0 then link else link.swap) ∈ hops entry.1.1 edge := by
  rcases entry with ⟨⟨cell, basis⟩, position⟩
  rw [entryLinks] at computed
  constructor
  · intro member
    cases found : lattice.patchAt? cell with
    | none =>
        simp only [found] at computed
        cases computed
        cases member
    | some patch =>
        cases exposed : Border.exposing? basis with
        | none =>
            simp only [found, exposed] at computed
            cases computed
            cases member
        | some border =>
            simp only [found, exposed] at computed
            rcases bind_eq_ok.mp computed with ⟨all, mapped, made⟩
            rw [pure_eq_ok, Except.ok.injEq] at made
            rw [← made, mem_flatten_of_mapM mapped fun _ _ _ => mem_edgeLinks] at member
            rcases member with ⟨edge, edgeMember, rfl, isOpen, hop⟩
            exact ⟨edge, ⟨⟨patch, found, edgeMember⟩, exposed, isOpen⟩, by simpa using hop⟩
  · intro member
    rcases member with ⟨edge, gate, hop⟩
    rcases gate.patch with ⟨patch, found, edgeMember⟩
    simp only [found, gate.exposes] at computed
    rcases bind_eq_ok.mp computed with ⟨all, mapped, made⟩
    rw [pure_eq_ok, Except.ok.injEq] at made
    rw [← made, mem_flatten_of_mapM mapped fun _ _ _ => mem_edgeLinks]
    exact ⟨edge, edgeMember, rfl, gate.isOpen, by simpa using hop⟩

theorem exists_patchLinks (within : lattice.Within) (request : Request) :
    ∃ links, patchLinks lattice request = .ok links := by
  have each : ∀ entry ∈ request.zipIdx, ∃ links, entryLinks lattice entry = .ok links := by
    intro entry _
    rcases entry with ⟨⟨cell, basis⟩, position⟩
    rw [entryLinks]
    cases found : lattice.patchAt? cell with
    | none => exact ⟨_, rfl⟩
    | some patch =>
        cases Border.exposing? basis with
        | none => exact ⟨_, rfl⟩
        | some border =>
            have edges : ∀ edge ∈ patch.edges, ∃ links,
                edgeLinks lattice cell border (position = 0) edge = .ok links :=
              fun edge member => exists_edgeLinks within.toSized cell border _
                (within.edge patch (Lattice.mem_of_patchAt? found).1 edge member)
            rcases exists_mapM_of_forall edges with ⟨all, mapped⟩
            simp only [mapped]
            exact ⟨_, rfl⟩
  rcases exists_mapM_of_forall each with ⟨all, mapped⟩
  rw [patchLinks, mapped]
  exact ⟨_, rfl⟩

/-- The first patch of a request is left, and the others are entered. -/
theorem mem_patchLinks {links : List (Cell × Cell)}
    (computed : patchLinks lattice request = .ok links) (link : Cell × Cell) :
    link ∈ links ↔
      (∃ source basis edge, request.head? = some (source, basis) ∧
        lattice.Gate source basis edge ∧ link ∈ hops source edge) ∨
      ∃ target basis edge, (target, basis) ∈ request.tail ∧
        lattice.Gate target basis edge ∧ link.swap ∈ hops target edge := by
  rw [patchLinks, bind_eq_ok] at computed
  rcases computed with ⟨all, mapped, made⟩
  rw [pure_eq_ok, Except.ok.injEq] at made
  rw [← made, mem_flatten_of_mapM mapped fun _ _ _ => mem_entryLinks]
  constructor
  · intro member
    rcases member with ⟨⟨⟨patch, basis⟩, position⟩, located, edge, gate, hop⟩
    have found := List.mem_zipIdx_iff_getElem?.mp located
    cases position with
    | zero => exact .inl ⟨patch, basis, edge, List.head?_eq_getElem?.trans found, gate, hop⟩
    | succ position =>
        have isTarget : (patch, basis) ∈ request.tail :=
          List.mem_of_getElem? (List.getElem?_tail.trans found)
        exact .inr ⟨patch, basis, edge, isTarget, gate, hop⟩
  · intro member
    cases member with
    | inl leaving =>
        rcases leaving with ⟨source, basis, edge, isHead, gate, hop⟩
        have found := List.head?_eq_getElem?.symm.trans isHead
        exact ⟨((source, basis), 0), List.mem_zipIdx_iff_getElem?.mpr found, edge, gate, hop⟩
    | inr entering =>
        rcases entering with ⟨target, basis, edge, isTarget, gate, hop⟩
        rcases List.getElem?_of_mem isTarget with ⟨position, found⟩
        rw [List.getElem?_tail] at found
        exact ⟨((target, basis), position + 1), List.mem_zipIdx_iff_getElem?.mpr found, edge, gate,
          hop⟩

theorem linked_of_mem_patchLinks {links : List (Cell × Cell)}
    (computed : patchLinks lattice request = .ok links) {cell next : Cell}
    (member : (cell, next) ∈ links) (inside : lattice.grid.contains cell = true)
    (nextInside : lattice.grid.contains next = true) : Linked lattice request cell next := by
  cases (mem_patchLinks computed _).mp member with
  | inl leaving =>
      rcases leaving with ⟨source, basis, edge, isHead, gate, hop⟩
      simp only [hops, List.mem_cons, List.not_mem_nil, or_false, Prod.mk.injEq] at hop
      rcases hop with ⟨rfl, rfl⟩ | ⟨rfl, rfl⟩
      · exact .toGate isHead gate inside nextInside
      · exact .leave isHead gate inside
  | inr entering =>
      rcases entering with ⟨target, basis, edge, isTarget, gate, hop⟩
      simp only [hops, Prod.swap_prod_mk, List.mem_cons, List.not_mem_nil, or_false,
        Prod.mk.injEq] at hop
      rcases hop with ⟨rfl, rfl⟩ | ⟨rfl, rfl⟩
      · exact .fromGate isTarget gate inside nextInside
      · exact .enter isTarget gate nextInside

theorem mem_linksFrom_iff {grid : Grid} (gridded : Grid.ofLattice lattice = .ok grid)
    {links : List (Cell × Cell)} {cell next : Cell} :
    next ∈ linksFrom lattice grid links cell ↔
      (lattice.Open cell ∧ lattice.Open next ∧ ∃ side, next = cell.shift side) ∨
      (cell, next) ∈ links ∧ next ≠ cell ∧
        lattice.grid.contains cell = true ∧ lattice.grid.contains next = true := by
  simp only [linksFrom, Lattice.contains_of_ofLattice gridded, List.mem_reverse, List.mem_eraseDups,
    List.mem_append]
  apply or_congr
  · split
    · next isOpen =>
        rw [Bool.and_eq_true] at isOpen
        rw [List.mem_filter, List.mem_map, Bool.and_eq_true]
        constructor
        · intro member
          rcases member with ⟨⟨side, _, rfl⟩, nextOpen⟩
          exact ⟨isOpen, nextOpen, side, rfl⟩
        · intro adjacent
          rcases adjacent with ⟨_, nextOpen, side, rfl⟩
          exact ⟨⟨side, side.mem_all, rfl⟩, nextOpen⟩
    · next closed =>
        rw [Bool.and_eq_true] at closed
        exact ⟨nofun, fun adjacent => absurd adjacent.1 closed⟩
  · simp only [List.mem_filterMap, Option.ite_none_right_eq_some, Option.some.injEq, Prod.exists]
    constructor
    · intro member
      rcases member with ⟨_, _, isLink, ⟨rfl, different, inside⟩, rfl⟩
      exact ⟨isLink, different, inside⟩
    · intro entering
      exact ⟨cell, next, entering.1, ⟨rfl, entering.2⟩, rfl⟩

/-- The search follows exactly the links of the request, apart from those that stay. -/
theorem mem_linksFrom {grid : Grid} (gridded : Grid.ofLattice lattice = .ok grid)
    {links : List (Cell × Cell)} (computed : patchLinks lattice request = .ok links)
    {cell next : Cell} :
    next ∈ linksFrom lattice grid links cell ↔ Linked lattice request cell next ∧ next ≠ cell := by
  rw [mem_linksFrom_iff gridded]
  constructor
  · intro either
    cases either with
    | inl adjacent =>
        rcases adjacent with ⟨isOpen, nextOpen, side, rfl⟩
        exact ⟨.adjacent side isOpen nextOpen, cell.shift_ne side⟩
    | inr entering =>
        rcases entering with ⟨isLink, different, inside, nextInside⟩
        exact ⟨linked_of_mem_patchLinks computed isLink inside nextInside, different⟩
  · intro linked
    rcases linked with ⟨linked, different⟩
    cases linked with
    | adjacent side isOpen nextOpen => exact .inl ⟨isOpen, nextOpen, side, rfl⟩
    | toGate isHead gate inside gateInside =>
        exact .inr ⟨(mem_patchLinks computed _).mpr
          (.inl ⟨_, _, _, isHead, gate, List.mem_cons_self⟩), different, inside, gateInside⟩
    | leave isHead gate inside =>
        refine .inr ⟨(mem_patchLinks computed _).mpr (.inl ⟨_, _, _, isHead, gate, ?_⟩), different,
          inside, gate.isOpen.1⟩
        exact List.mem_cons_of_mem _ List.mem_cons_self
    | enter isTarget gate inside =>
        refine .inr ⟨(mem_patchLinks computed _).mpr (.inr ⟨_, _, _, isTarget, gate, ?_⟩),
          different, gate.isOpen.1, inside⟩
        exact List.mem_cons_of_mem _ List.mem_cons_self
    | fromGate isTarget gate gateInside inside =>
        exact .inr ⟨(mem_patchLinks computed _).mpr
          (.inr ⟨_, _, _, isTarget, gate, List.mem_cons_self⟩), different, gateInside, inside⟩

theorem nodup_eraseDups {α : Type} [BEq α] [LawfulBEq α] (values : List α) :
    values.eraseDups.Nodup := by
  generalize size : values.length = bound
  induction bound using Nat.strongRecOn generalizing values with
  | ind bound induction =>
      cases values with
      | nil => exact List.nodup_nil
      | cons value rest =>
          have shorter : (rest.filter fun other => !other == value).length < bound := by
            have := List.length_filter_le (fun other => !other == value) rest
            rw [List.length_cons] at size
            omega
          rw [List.eraseDups_cons, List.nodup_cons, List.mem_eraseDups, List.mem_filter]
          exact ⟨by simp, induction _ shorter _ rfl⟩

theorem nodup_linksFrom (lattice : Lattice) (grid : Grid) (links : List (Cell × Cell))
    (cell : Cell) : (linksFrom lattice grid links cell).Nodup :=
  List.nodup_reverse.mpr (nodup_eraseDups _)

/-! ## Paths -/

section Paths

variable {grid : Grid} (gridded : Grid.ofLattice lattice = .ok grid)
  {links : List (Cell × Cell)} (computed : patchLinks lattice request = .ok links)
  {source target : Cell}

include gridded computed

theorem linksFrom_eq : (fun cell next => next ∈ linksFrom lattice grid links cell) =
    fun cell next => Linked lattice request cell next ∧ next ≠ cell := by
  funext cell next
  exact propext (mem_linksFrom gridded computed)

/-- What the search gives is a way along the links of the request. -/
theorem isWay_of_findPath {path : List Cell}
    (found : findPath source (Search.trails (linksFrom lattice grid links) grid.size source)
      target = .ok path) : Search.IsWay (Linked lattice request) source target path := by
  rw [findPath] at found
  split at found
  · next given =>
      have isWay := Search.isWay_of_pathTo? given
      rw [linksFrom_eq gridded computed] at isWay
      rw [← Except.ok.inj found]
      exact isWay.mono fun _ _ linked => linked.1
  · exact absurd found (refuse_ne_ok _ _)

/-- A target that can be reached gets a shortest path. -/
theorem exists_findPath (different : source ≠ target)
    (reaches : Relation.ReflTransGen (Linked lattice request) source target) :
    ∃ path, findPath source (Search.trails (linksFrom lattice grid links) grid.size source) target =
      .ok path ∧ Search.IsShortest (Linked lattice request) source target path := by
  have inGrid := Lattice.contains_of_ofLattice gridded
  have inside : source ∈ grid.cells := by
    cases reaches.cases_head with
    | inl same => exact absurd same different
    | inr first =>
        rcases first with ⟨next, linked, _⟩
        rw [Grid.mem_cells, inGrid]
        exact linked.contains.1
  have closed : ∀ cell ∈ grid.cells, ∀ next ∈ linksFrom lattice grid links cell,
      next ∈ grid.cells := by
    intro cell _ next member
    rw [Grid.mem_cells, inGrid]
    exact ((mem_linksFrom gridded computed).mp member).1.contains.2
  rcases Search.IsWay.exists_of_reaches reaches with ⟨way, isWay⟩
  rcases isWay.exists_proper with ⟨proper, properWay, _⟩
  have reached := properWay.reaches
  rw [← linksFrom_eq gridded computed] at reached
  rcases Search.exists_pathTo? (nodup_linksFrom lattice grid links) closed
    inside (Nat.le_of_eq grid.length_cells) reached with ⟨path, found, shortest⟩
  rw [linksFrom_eq gridded computed] at shortest
  exact ⟨path, by rw [findPath, found], shortest.of_proper⟩

theorem findPath_eq_refuse
    (unreached : ¬ Relation.ReflTransGen (Linked lattice request) source target) :
    findPath source (Search.trails (linksFrom lattice grid links) grid.size source) target =
      Result.refuse (.route (.noPath source target)) := by
  cases found : findPath source
      (Search.trails (linksFrom lattice grid links) grid.size source) target with
  | ok path => exact absurd (isWay_of_findPath gridded computed found).reaches unreached
  | error failure =>
      rw [← found, findPath]
      split
      · next given =>
          rw [findPath, given] at found
          cases found
      · rfl

end Paths

theorem findPaths_eq {grid : Grid} (gridded : Grid.ofLattice lattice = .ok grid)
    {source : Cell × Pauli} {targets : Request} {links : List (Cell × Cell)}
    (computed : patchLinks lattice (source :: targets) = .ok links) :
    findPaths lattice (source :: targets) = (do
      Storage.number grid.size
      Storage.number (linkCount lattice grid links)
      targets.mapM fun target => findPath source.1
        (Search.trails (linksFrom lattice grid links) grid.size source.1) target.1) := by
  rw [findPaths, gridded]
  simp only [liftM_eq_ofFaulty, computed, ofFaulty_ok, ok_bind]

theorem findPaths_eq_ok {source : Cell × Pauli} {targets : Request} {paths : List (List Cell)}
    (found : findPaths lattice (source :: targets) = .ok paths) :
    ∃ grid links, Grid.ofLattice lattice = .ok grid ∧
      patchLinks lattice (source :: targets) = .ok links ∧
      Storage.number grid.size = .ok () ∧
      Storage.number (linkCount lattice grid links) = .ok () ∧
      targets.mapM (fun target => findPath source.1
        (Search.trails (linksFrom lattice grid links) grid.size source.1) target.1) =
          .ok paths := by
  have computations := found
  rw [findPaths, bind_eq_ok] at computations
  rcases computations with ⟨grid, gridded, computations⟩
  rcases bind_eq_ok.mp computations with ⟨_, _, computations⟩
  rcases bind_eq_ok.mp computations with ⟨links, computed, _⟩
  rw [liftM_eq_ofFaulty, ofFaulty_eq_ok_iff] at gridded computed
  rw [findPaths_eq gridded computed, bind_eq_ok] at found
  rcases found with ⟨_, few, found⟩
  rcases bind_eq_ok.mp found with ⟨_, fewLinks, searched⟩
  rw [liftM_eq_ofFaulty, ofFaulty_eq_ok_iff] at few fewLinks
  exact ⟨grid, links, gridded, computed, few, fewLinks, searched⟩

/-- The paths that have been found lead to the targets. -/
theorem isWay_of_findPaths {source : Cell × Pauli} {targets : Request}
    {paths : List (List Cell)} (found : findPaths lattice (source :: targets) = .ok paths) :
    List.Forall₂ (fun target path =>
      Search.IsWay (Linked lattice (source :: targets)) source.1 target.1 path) targets paths := by
  rcases findPaths_eq_ok found with ⟨grid, links, gridded, computed, _, _, searched⟩
  exact (mapM_eq_ok.mp searched).imp fun _ _ => isWay_of_findPath gridded computed

end Route

end LatticeSurgery
