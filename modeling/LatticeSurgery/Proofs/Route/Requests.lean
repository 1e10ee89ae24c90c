import LatticeSurgery.Proofs.Route.Laying
import LatticeSurgery.Proofs.Route.Numbering

namespace LatticeSurgery

open Result

namespace Route

/-! # Requests

A request is granted exactly when it is valid, its search can be numbered and all its targets
can be reached. A request that is not granted leaves the lattice as it was. -/

variable {lattice : Lattice} {request : Request}

/-- A request for at least two different patches, each named by its representative and with
an operator that has a border. -/
structure Valid (lattice : Lattice) (request : Request) : Prop where
  several : 2 ≤ request.length
  basis : ∀ entry ∈ request, entry.2 = .X ∨ entry.2 = .Z
  represents : ∀ entry ∈ request, lattice.representative? entry.1 = some entry.1
  distinct : (request.map Prod.fst).Nodup

theorem exposing?_isNone {basis : Pauli} :
    (Border.exposing? basis).isNone = true ↔ ¬ (basis = .X ∨ basis = .Z) := by
  cases basis <;> simp [Border.exposing?]

theorem checkEntry_eq_ok {seen next : List Cell} {entry : Cell × Pauli} :
    checkEntry lattice seen entry = .ok next ↔
      ((entry.2 = .X ∨ entry.2 = .Z) ∧ lattice.representative? entry.1 = some entry.1 ∧
        entry.1 ∉ seen) ∧ entry.1 :: seen = next := by
  simp only [checkEntry, exposing?_isNone]
  split
  · next unexposed => simp [unexposed]
  · next exposed =>
      split
      · next stranger => simp [stranger]
      · next represents =>
          split
          · next again => simp [again]
          · next fresh => simp [not_not.mp exposed, not_not.mp represents, fresh]

theorem refused_of_checkEntry {seen : List Cell} {entry : Cell × Pauli}
    {failure : Failure LatticeError} (failed : checkEntry lattice seen entry = .error failure) :
    ∃ error, failure = .refused error := by
  simp only [checkEntry] at failed
  split at failed
  · exact ⟨_, (Except.error.inj failed).symm⟩
  · split at failed
    · exact ⟨_, (Except.error.inj failed).symm⟩
    · split at failed
      · exact ⟨_, (Except.error.inj failed).symm⟩
      · cases failed

theorem exists_checkEntries_iff {seen : List Cell} :
    (∃ all, request.foldlM (checkEntry lattice) seen = .ok all) ↔
      (∀ entry ∈ request, (entry.2 = .X ∨ entry.2 = .Z) ∧
        lattice.representative? entry.1 = some entry.1 ∧ entry.1 ∉ seen) ∧
      (request.map Prod.fst).Nodup := by
  induction request generalizing seen with
  | nil => simp
  | cons entry rest induction =>
      have split : (∃ all, (entry :: rest).foldlM (checkEntry lattice) seen = .ok all) ↔
          ((entry.2 = .X ∨ entry.2 = .Z) ∧ lattice.representative? entry.1 = some entry.1 ∧
            entry.1 ∉ seen) ∧
          ∃ all, rest.foldlM (checkEntry lattice) (entry.1 :: seen) = .ok all := by
        simp only [List.foldlM_cons, bind_eq_ok, checkEntry_eq_ok]
        constructor
        · intro checked
          rcases checked with ⟨all, _, ⟨fine, rfl⟩, checked⟩
          exact ⟨fine, all, checked⟩
        · intro checked
          rcases checked with ⟨fine, all, checked⟩
          exact ⟨all, _, ⟨fine, rfl⟩, checked⟩
      rw [split, induction, List.forall_mem_cons, List.map_cons, List.nodup_cons]
      simp only [List.mem_cons, List.mem_map, not_or]
      constructor
      · intro checked
        rcases checked with ⟨fine, others, distinct⟩
        refine ⟨⟨fine, fun other member => ?_⟩, ?_, distinct⟩
        · exact ⟨(others other member).1, (others other member).2.1, (others other member).2.2.2⟩
        · intro again
          rcases again with ⟨other, member, same⟩
          exact (others other member).2.2.1 same
      · intro checked
        rcases checked with ⟨⟨fine, others⟩, once, distinct⟩
        refine ⟨fine, fun other member => ?_, distinct⟩
        have ok := others other member
        exact ⟨ok.1, ok.2.1, fun same => once ⟨other, member, same⟩, ok.2.2⟩

theorem check_eq_ok_iff : check lattice request = .ok () ↔ Valid lattice request := by
  have checks : check lattice request = .ok () ↔ 2 ≤ request.length ∧
      ∃ all, request.foldlM (checkEntry lattice) [] = .ok all := by
    rw [check]
    split
    · next few =>
        rw [refuse_bind]
        simp only [refuse_ne_ok, false_iff]
        omega
    · next several =>
        rw [bind_eq_ok]
        constructor
        · intro checked
          rcases checked with ⟨all, checked, _⟩
          exact ⟨Nat.le_of_not_lt several, all, checked⟩
        · intro checked
          rcases checked with ⟨_, all, checked⟩
          exact ⟨all, checked, rfl⟩
  rw [checks, exists_checkEntries_iff]
  constructor
  · intro fine
    rcases fine with ⟨several, each, distinct⟩
    exact ⟨several, fun entry member => (each entry member).1,
      fun entry member => (each entry member).2.1, distinct⟩
  · intro valid
    exact ⟨valid.several, fun entry member =>
      ⟨valid.basis entry member, valid.represents entry member, List.not_mem_nil⟩, valid.distinct⟩

theorem refused_of_check {failure : Failure LatticeError}
    (failed : check lattice request = .error failure) : ∃ error, failure = .refused error := by
  rw [check] at failed
  split at failed
  · exact ⟨_, (Except.error.inj failed).symm⟩
  · cases checked : request.foldlM (checkEntry lattice) [] with
    | ok all =>
        rw [checked] at failed
        cases failed
    | error cause =>
        rw [checked, error_bind] at failed
        rw [← Except.error.inj failed]
        exact of_foldlM_error (fun failure => ∃ error, failure = .refused error)
          (fun _ _ _ _ => refused_of_checkEntry) checked

/-! ## Granted requests -/

/-- A cell that can be reached from the first patch of a request. -/
def Reaches (lattice : Lattice) (request : Request) (cell : Cell) : Prop :=
  ∃ source ∈ request.head?, Relation.ReflTransGen (Linked lattice request) source.1 cell

theorem run_lay_of_check {failure : Failure LatticeError}
    (failed : check lattice request = .error failure) :
    (lay request).run lattice = .error failure lattice := by
  rw [lay, EStateM.run_bind, EStateM.run_get]
  simp only [failed, Laying.lift]
  rfl

theorem run_lay_of_findPaths {failure : Failure LatticeError}
    (checked : check lattice request = .ok ())
    (failed : findPaths lattice request = .error failure) :
    (lay request).run lattice = .error failure lattice := by
  rw [lay, EStateM.run_bind, EStateM.run_get]
  simp only [checked, failed, Laying.lift]
  rfl

theorem run_lay {paths : List (List Cell)} (checked : check lattice request = .ok ())
    (found : findPaths lattice request = .ok paths) :
    (lay request).run lattice = (paths.foldlM layPath ⟨[], []⟩).run lattice := by
  rw [lay, EStateM.run_bind, EStateM.run_get]
  simp only [checked, found, Laying.lift]
  rfl

/-- Paths that have been found can all be laid. -/
theorem exists_layPaths {original : Lattice} (sized : original.Sized)
    (laid : Laid original lattice) {source : Cell}
    (represented : original.representative? source = some source) {paths : List (List Cell)}
    (ways : ∀ path ∈ paths, ∃ target, source ≠ target ∧
      original.representative? target = some target ∧
      Search.IsWay (Linked original request) source target path) (region : Region) :
    ∃ final after, (paths.foldlM layPath region).run lattice = .ok final after ∧
      Laid original after ∧ final.paths = region.paths ++ paths.map (trim original) := by
  induction paths generalizing lattice region with
  | nil => exact ⟨region, lattice, rfl, laid, (List.append_nil _).symm⟩
  | cons path rest induction =>
      rcases ways path List.mem_cons_self with ⟨target, different, targetRepresented, way⟩
      rcases exists_layPath sized laid way different represented targetRepresented region with
        ⟨next, between, laying, nextLaid, nextPaths⟩
      rcases induction nextLaid (fun other member => ways other (.tail _ member)) next with
        ⟨final, after, layingRest, finalLaid, finalPaths⟩
      refine ⟨final, after, ?_, finalLaid, ?_⟩
      · rw [List.foldlM_cons, run_bind_eq_ok]
        exact ⟨next, between, laying, layingRest⟩
      · rw [finalPaths, nextPaths, List.append_assoc, List.map_cons]
        rfl

theorem Valid.ne_of_mem {source : Cell × Pauli} {targets : Request}
    (valid : Valid lattice (source :: targets)) {target : Cell × Pauli}
    (member : target ∈ targets) : source.1 ≠ target.1 := by
  have distinct := valid.distinct
  rw [List.map_cons, List.nodup_cons] at distinct
  intro same
  exact distinct.1 (same ▸ List.mem_map_of_mem member)

/-- A shortest way along the links of the request, without the cells inside of the patches
at its ends. -/
def IsRoute (lattice : Lattice) (request : Request) (source target : Cell) (path : List Cell) :
    Prop :=
  ∃ whole, Search.IsShortest (Linked lattice request) source target whole ∧
    Trimmed lattice source target whole path

/-- A valid request whose targets can all be reached is granted. -/
theorem exists_lay (within : lattice.Within) {source : Cell × Pauli} {targets : Request}
    (valid : Valid lattice (source :: targets))
    (numbered : Numbered lattice (source :: targets))
    (reaches : ∀ target ∈ targets,
      Relation.ReflTransGen (Linked lattice (source :: targets)) source.1 target.1) :
    ∃ region after, (lay (source :: targets)).run lattice = .ok region after ∧
      Laid lattice after ∧ List.Forall₂ (fun target path =>
        IsRoute lattice (source :: targets) source.1 target.1 path) targets region.paths := by
  rcases within.toSized.exists_ofLattice with ⟨grid, gridded⟩
  rcases exists_patchLinks within (source :: targets) with ⟨links, computed⟩
  have each : ∀ target ∈ targets, ∃ path, findPath source.1
      (Search.trails (linksFrom lattice grid links) grid.size source.1) target.1 = .ok path ∧
      Search.IsShortest (Linked lattice (source :: targets)) source.1 target.1 path ∧
      target ∈ targets := by
    intro target member
    rcases exists_findPath gridded computed (valid.ne_of_mem member) (reaches target member) with
      ⟨path, found, shortest⟩
    exact ⟨path, found, shortest, member⟩
  rcases exists_mapM each with ⟨paths, found, shortest⟩
  have represented := valid.represents source List.mem_cons_self
  have ways : ∀ path ∈ paths, ∃ target, source.1 ≠ target ∧
      lattice.representative? target = some target ∧
      Search.IsWay (Linked lattice (source :: targets)) source.1 target path := by
    intro path member
    rcases exists_of_mem_right shortest member with ⟨target, _, isShortest, targetMember⟩
    exact ⟨target.1, valid.ne_of_mem targetMember, valid.represents target (.tail _ targetMember),
      isShortest.toIsWay⟩
  rcases exists_layPaths within.toSized (.refl lattice) represented ways ⟨[], []⟩ with
    ⟨region, after, laying, laid, regionPaths⟩
  refine ⟨region, after, ?_, laid, ?_⟩
  · rw [run_lay (check_eq_ok_iff.mpr valid)
      ((findPaths_of_numbered gridded computed numbered).trans found), laying]
  · rw [regionPaths, List.nil_append, List.forall₂_map_right_iff]
    apply shortest.imp
    intro target path isShortest
    rcases isShortest with ⟨isShortest, member⟩
    have long := isShortest.two_le_length (valid.ne_of_mem member)
    exact ⟨path, isShortest, (trimmed_trim isShortest.head isShortest.last represented
      (valid.represents target (.tail _ member)) long).1⟩

/-- The first target that cannot be reached is named. -/
theorem run_lay_of_unreached (within : lattice.Within) {source : Cell × Pauli}
    {before : Request} {target : Cell × Pauli} {rest : Request}
    (valid : Valid lattice (source :: (before ++ target :: rest)))
    (numbered : Numbered lattice (source :: (before ++ target :: rest)))
    (reaches : ∀ earlier ∈ before, Relation.ReflTransGen
      (Linked lattice (source :: (before ++ target :: rest))) source.1 earlier.1)
    (unreached : ¬ Relation.ReflTransGen
      (Linked lattice (source :: (before ++ target :: rest))) source.1 target.1) :
    (lay (source :: (before ++ target :: rest))).run lattice =
      .error (.refused (.route (.noPath source.1 target.1))) lattice := by
  rcases within.toSized.exists_ofLattice with ⟨grid, gridded⟩
  rcases exists_patchLinks within (source :: (before ++ target :: rest)) with ⟨links, computed⟩
  apply run_lay_of_findPaths (check_eq_ok_iff.mpr valid)
  rw [findPaths_of_numbered gridded computed numbered]
  refine mapM_eq_error (fun earlier member => ?_) (findPath_eq_refuse gridded computed unreached)
  rcases exists_findPath gridded computed
    (valid.ne_of_mem (List.mem_append_left _ member)) (reaches earlier member) with ⟨path, found, _⟩
  exact ⟨path, found⟩

/-- A valid request without numbers for its search ends in a fault. -/
theorem run_lay_of_not_numbered (within : lattice.Within) (valid : Valid lattice request)
    (crowded : ¬ Numbered lattice request) :
    (lay request).run lattice = .error (.fault .indexing) lattice := by
  apply run_lay_of_findPaths (check_eq_ok_iff.mpr valid)
  cases request with
  | nil => exact absurd valid.several (by simp)
  | cons source targets => exact findPaths_of_not_numbered within crowded

theorem route_of_not_numbered (within : lattice.Within) (valid : Valid lattice request)
    (crowded : ¬ Numbered lattice request) :
    lattice.route request = .error (.fault .indexing) := by
  rw [Lattice.route, run_lay_of_not_numbered within valid crowded]

theorem exists_lay_of_not_valid (invalid : ¬ Valid lattice request) :
    ∃ error, (lay request).run lattice = .error (.refused error) lattice := by
  cases checked : check lattice request with
  | ok value => exact absurd (check_eq_ok_iff.mp checked) invalid
  | error failure =>
      rcases refused_of_check checked with ⟨error, rfl⟩
      exact ⟨error, run_lay_of_check checked⟩

theorem valid_of_run_lay {region : Region} {after : Lattice}
    (performed : (lay request).run lattice = .ok region after) : Valid lattice request := by
  by_contra invalid
  rcases exists_lay_of_not_valid invalid with ⟨error, refused⟩
  rw [refused] at performed
  cases performed

theorem run_lay_of_route {region : Region} {after : Lattice}
    (routed : lattice.route request = .ok (after, region)) :
    (lay request).run lattice = .ok region after := by
  rw [Lattice.route] at routed
  cases run : (lay request).run lattice with
  | error failure between =>
      rw [run] at routed
      cases routed
  | ok found final =>
      rw [run] at routed
      cases routed
      rfl

theorem reaches_cons_iff {source : Cell × Pauli} {targets : Request} {cell : Cell} :
    Reaches lattice (source :: targets) cell ↔
      Relation.ReflTransGen (Linked lattice (source :: targets)) source.1 cell := by
  simp [Reaches]

/-! ## All or nothing -/

/-- A request is granted if it is valid, its search can be numbered and all its targets can be
reached. Otherwise nothing changes. The request is refused then, or it ends in a fault because
the search has too many cells or links. -/
structure AllOrNothing (lattice : Lattice) (request : Request)
    (result : EStateM.Result (Failure LatticeError) Lattice Region) : Prop where
  granted : (∃ region after, result = .ok region after) ↔
    Valid lattice request ∧ Numbered lattice request ∧
      ∀ target ∈ request.tail, Reaches lattice request target.1
  unchanged : ∀ failure after, result = .error failure after → after = lattice ∧
    ((∃ error, failure = .refused error) ∨
      failure = .fault .indexing ∧ Valid lattice request ∧ ¬ Numbered lattice request)
  crowded : Valid lattice request → ¬ Numbered lattice request →
    result = .error (.fault .indexing) lattice
  unreached : Valid lattice request → Numbered lattice request → ∀ source before target rest,
    request = source :: (before ++ target :: rest) →
    (∀ earlier ∈ before, Reaches lattice request earlier.1) →
    ¬ Reaches lattice request target.1 →
    result = .error (.refused (.route (.noPath source.1 target.1))) lattice
  shortest : ∀ region after, result = .ok region after → ∀ source ∈ request.head?,
    List.Forall₂ (fun target path => IsRoute lattice request source.1 target.1 path)
      request.tail region.paths

namespace AllOrNothing

theorem of_ok {region : Region} {after : Lattice} (valid : Valid lattice request)
    (numbered : Numbered lattice request)
    (reaches : ∀ target ∈ request.tail, Reaches lattice request target.1)
    (routes : ∀ source ∈ request.head?, List.Forall₂ (fun target path =>
      IsRoute lattice request source.1 target.1 path) request.tail region.paths) :
    AllOrNothing lattice request (.ok region after) where
  granted := ⟨fun _ => ⟨valid, numbered, reaches⟩, fun _ => ⟨region, after, rfl⟩⟩
  unchanged := nofun
  crowded _ crowded := absurd numbered crowded
  unreached _ _ source before target rest split _ unreached :=
    absurd (reaches target (by simp [split])) unreached
  shortest _ _ same := by
    cases same
    exact routes

theorem of_fault (valid : Valid lattice request) (crowded : ¬ Numbered lattice request) :
    AllOrNothing lattice request (.error (.fault .indexing) lattice) where
  granted := ⟨nofun, fun fine => absurd fine.2.1 crowded⟩
  unchanged _ _ same := by
    cases same
    exact ⟨rfl, .inr ⟨rfl, valid, crowded⟩⟩
  crowded _ _ := rfl
  unreached _ numbered := absurd numbered crowded
  shortest := nofun

theorem of_refused {error : LatticeError}
    (declined : ¬ (Valid lattice request ∧
      ∀ target ∈ request.tail, Reaches lattice request target.1))
    (numbered : Valid lattice request → Numbered lattice request)
    (named : Valid lattice request → ∀ source before target rest,
      request = source :: (before ++ target :: rest) →
      (∀ earlier ∈ before, Reaches lattice request earlier.1) →
      ¬ Reaches lattice request target.1 → error = .route (.noPath source.1 target.1)) :
    AllOrNothing lattice request (.error (.refused error) lattice) where
  granted := ⟨nofun, fun fine => absurd ⟨fine.1, fine.2.2⟩ declined⟩
  unchanged _ _ same := by
    cases same
    exact ⟨rfl, .inl ⟨error, rfl⟩⟩
  crowded valid crowded := absurd (numbered valid) crowded
  unreached valid _ source before target rest split reaches unreached := by
    rw [named valid source before target rest split reaches unreached]
  shortest := nofun

end AllOrNothing

private theorem exists_first_not {α : Type} {Holds : α → Prop} {values : List α}
    (some : ¬ ∀ value ∈ values, Holds value) :
    ∃ before value rest, values = before ++ value :: rest ∧
      (∀ earlier ∈ before, Holds earlier) ∧ ¬ Holds value := by
  induction values with
  | nil => exact absurd nofun some
  | cons first others induction =>
      by_cases holds : Holds first
      · have later : ¬ ∀ value ∈ others, Holds value := fun all =>
          some (List.forall_mem_cons.mpr ⟨holds, all⟩)
        rcases induction later with ⟨before, value, rest, rfl, fine, fails⟩
        exact ⟨first :: before, value, rest, rfl, List.forall_mem_cons.mpr ⟨holds, fine⟩, fails⟩
      · exact ⟨[], first, others, rfl, nofun, holds⟩

/-- Routing commits a whole merge region along shortest paths, or it changes nothing. -/
theorem lay_allOrNothing (within : lattice.Within) (request : Request) :
    AllOrNothing lattice request ((lay request).run lattice) := by
  by_cases valid : Valid lattice request
  · by_cases numbered : Numbered lattice request
    · match request, valid with
      | [], valid => exact absurd valid.several (by simp)
      | source :: targets, valid =>
          by_cases all : ∀ target ∈ targets, Reaches lattice (source :: targets) target.1
          · have reaches := all
            simp only [reaches_cons_iff] at reaches
            rcases exists_lay within valid numbered reaches with ⟨region, after, granted, _, routes⟩
            rw [granted]
            apply AllOrNothing.of_ok valid numbered all
            intro first isFirst
            rw [← Option.some.inj isFirst]
            exact routes
          · have named : ∀ first before target rest,
                source :: targets = first :: (before ++ target :: rest) →
                (∀ earlier ∈ before, Reaches lattice (source :: targets) earlier.1) →
                ¬ Reaches lattice (source :: targets) target.1 →
                (lay (source :: targets)).run lattice =
                  .error (.refused (.route (.noPath first.1 target.1))) lattice := by
              intro first before target rest split reaches unreached
              rcases List.cons.inj split with ⟨rfl, rfl⟩
              simp only [reaches_cons_iff] at reaches unreached
              exact run_lay_of_unreached within valid numbered reaches unreached
            rcases exists_first_not all with ⟨before, target, rest, split, reaches, unreached⟩
            have refused := named source before target rest (split ▸ rfl) reaches unreached
            have declined : ¬ (Valid lattice (source :: targets) ∧
                ∀ target ∈ targets, Reaches lattice (source :: targets) target.1) :=
              fun fine => all fine.2
            rw [refused]
            apply AllOrNothing.of_refused declined fun _ => numbered
            intro _ first earlier other later otherSplit otherReaches otherUnreached
            have same := refused.symm.trans
              (named first earlier other later otherSplit otherReaches otherUnreached)
            injection same with same
            injection same
    · rw [run_lay_of_not_numbered within valid numbered]
      exact .of_fault valid numbered
  · rcases exists_lay_of_not_valid valid with ⟨error, refused⟩
    rw [refused]
    exact .of_refused (fun fine => valid fine.1) (fun isValid => absurd isValid valid)
      fun isValid => absurd isValid valid

/-- A patch of two cells and a patch of one cell, with two free cells between them. -/
def wideBesideSquare : Lattice :=
  ⟨[((Patch.bare .qubit none ⟨0, 0⟩).withCell ⟨1, 0⟩).withEdge ⟨⟨1, 0⟩, .right, .solid⟩,
    Patch.square ⟨4, 0⟩ .qubit .zero], 2, 5⟩

theorem lay_allOrNothing_wideBesideSquare :
    wideBesideSquare.Within ∧
      ∃ region after,
        (lay [(⟨0, 0⟩, .Z), (⟨4, 0⟩, .Z)]).run wideBesideSquare = .ok region after := by
  have within : wideBesideSquare.Within :=
    ⟨⟨by decide, by decide, by decide⟩, by simp only [Cell.Within]; decide⟩
  refine ⟨within, (lay_allOrNothing within _).granted.mpr ⟨⟨by decide, by decide, by decide,
    by decide⟩, numbered_of_small _ (by decide), ?_⟩⟩
  have isOpen : ∀ col ∈ [2, 3], wideBesideSquare.Open ⟨col, 0⟩ := by
    simp only [Lattice.Open]
    decide
  have leaving : wideBesideSquare.Gate ⟨0, 0⟩ .Z ⟨⟨1, 0⟩, .right, .solid⟩ :=
    ⟨⟨_, rfl, by decide⟩, rfl, isOpen 2 (by decide)⟩
  have entering : wideBesideSquare.Gate ⟨4, 0⟩ .Z ⟨⟨4, 0⟩, .left, .solid⟩ :=
    ⟨⟨_, rfl, by decide⟩, rfl, isOpen 3 (by decide)⟩
  intro target member
  rw [List.mem_singleton.mp member, reaches_cons_iff]
  exact (((Relation.ReflTransGen.single (.toGate rfl leaving (by decide) (by decide))).tail
    (.leave rfl leaving (by decide))).tail (.adjacent .right (isOpen 2 (by decide))
      (isOpen 3 (by decide)))).tail (.enter List.mem_cons_self entering (by decide))

/-- Two squares with a free cell between them, on a grid that has fewer cells than there are
numbers, but more links. -/
def crowdedGrid : Lattice :=
  ⟨[Patch.square ⟨0, 0⟩ .qubit .zero, Patch.square ⟨2, 0⟩ .qubit .zero], 32800, 32800⟩

private theorem open_crowdedGrid {col row : Int} (low : 0 ≤ col) (high : col < 32800)
    (rowLow : 0 ≤ row) (rowHigh : row < 32800) (free : row = 0 → col ≠ 0 ∧ col ≠ 2) :
    crowdedGrid.Open ⟨col, row⟩ := by
  have grid : crowdedGrid.grid = ⟨32800, 32800⟩ := by decide
  constructor
  · rw [Lattice.contains_grid, grid]
    exact ⟨⟨low, high⟩, rowLow, rowHigh⟩
  · rw [Lattice.isFree_iff]
    have cells : crowdedGrid.cells = [⟨0, 0⟩, ⟨2, 0⟩] := by decide
    simp only [cells, List.mem_cons, List.not_mem_nil, or_false, Cell.mk.injEq]
    omega

/-- A rectangle of cells around which everything is free. -/
private def innerCells (width height : Nat) : Finset Cell :=
  (Finset.range width ×ˢ Finset.range height).image fun position =>
    ⟨position.1 + 1, position.2 + 2⟩

private theorem card_innerCells (width height : Nat) :
    (innerCells width height).card = width * height := by
  rw [innerCells, Finset.card_image_of_injective, Finset.card_product, Finset.card_range,
    Finset.card_range]
  intro position other same
  simp only [Cell.mk.injEq] at same
  apply Prod.ext <;> omega

/-- Each cell of the rectangle has links to all its sides. -/
private theorem links_of_innerCells {width height : Nat} (wide : width ≤ 32798)
    (high : height ≤ 32797) (request : Request) :
    width * height * 4 ≤ (links crowdedGrid request).ncard := by
  have sides : Side.all.toFinset.card = 4 := by decide
  rw [← card_innerCells width height, ← sides, ← Finset.card_product]
  apply card_le_ncard_links
  rintro ⟨cell, side⟩ member
  rw [Finset.mem_product, innerCells, Finset.mem_image] at member
  rcases member.1 with ⟨position, inside, same⟩
  rw [Finset.mem_product, Finset.mem_range, Finset.mem_range] at inside
  rw [← same]
  refine .adjacent side ?_ ?_
  · exact open_crowdedGrid (by omega) (by omega) (by omega) (by omega) (by omega)
  · apply open_crowdedGrid <;> cases side <;> simp only [Side.offset] <;> omega

private theorem not_numbered_crowdedGrid (request : Request) : ¬ Numbered crowdedGrid request := by
  intro numbered
  have many := links_of_innerCells (Nat.le_refl 32798) (Nat.le_refl 32797) request
  have few := numbered.links
  rw [Storage.indices] at few
  omega

/-- On a grid with too many links a request ends in a fault although its target can be
reached. -/
theorem not_granted_crowdedGrid :
    crowdedGrid.Within ∧ Valid crowdedGrid [(⟨0, 0⟩, .Z), (⟨2, 0⟩, .Z)] ∧
      (∀ target ∈ [((⟨2, 0⟩, .Z) : Cell × Pauli)],
        Reaches crowdedGrid [(⟨0, 0⟩, .Z), (⟨2, 0⟩, .Z)] target.1) ∧
      (lay [(⟨0, 0⟩, .Z), (⟨2, 0⟩, .Z)]).run crowdedGrid =
        .error (.fault .indexing) crowdedGrid := by
  have within : crowdedGrid.Within :=
    ⟨⟨by decide, by decide, by decide⟩, by simp only [Cell.Within]; decide⟩
  have valid : Valid crowdedGrid [(⟨0, 0⟩, .Z), (⟨2, 0⟩, .Z)] :=
    ⟨by decide, by decide, by decide, by decide⟩
  have isOpen : crowdedGrid.Open ⟨1, 0⟩ :=
    open_crowdedGrid (by decide) (by decide) (by decide) (by decide) (by decide)
  have leaving : crowdedGrid.Gate ⟨0, 0⟩ .Z ⟨⟨0, 0⟩, .right, .solid⟩ :=
    ⟨⟨_, rfl, by decide⟩, rfl, isOpen⟩
  have entering : crowdedGrid.Gate ⟨2, 0⟩ .Z ⟨⟨2, 0⟩, .left, .solid⟩ :=
    ⟨⟨_, rfl, by decide⟩, rfl, isOpen⟩
  refine ⟨within, valid, ?_, run_lay_of_not_numbered within valid (not_numbered_crowdedGrid _)⟩
  intro target member
  rw [List.mem_singleton.mp member, reaches_cons_iff]
  exact (Relation.ReflTransGen.single (.leave rfl leaving (by decide))).tail
    (.enter List.mem_cons_self entering (by decide))

end Route

end LatticeSurgery
