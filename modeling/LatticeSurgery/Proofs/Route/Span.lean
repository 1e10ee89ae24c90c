import LatticeSurgery.Proofs.Route.Requests

namespace LatticeSurgery

/-! # Spans between patches

Where no other patch hides a gate, a way to a target leaves the source through a gate, crosses
open cells and enters the target through a gate. Of such a way, trimming keeps the cells of the
two gates and the open cells between them. -/

namespace Cell

/-- The next cell lies on one of the four sides of a cell. -/
def Beside (cell next : Cell) : Prop := ∃ side, next = cell.shift side

theorem Beside.symm {cell next : Cell} (beside : cell.Beside next) : next.Beside cell := by
  rcases beside with ⟨side, rfl⟩
  exact ⟨side.opposite, (cell.shift_opposite side).symm⟩

end Cell

/-- A patch that takes part in no merge. Its borders are on its own cells, and no side of a
cell has two of them. -/
structure Patch.Plain (patch : Patch) : Prop where
  role_ne : patch.role ≠ .ancilla
  border : ∀ edge ∈ patch.edges, edge.border.isStitched = false ∧ edge.border ≠ .join
  own : ∀ edge ∈ patch.edges, edge.cell ∈ patch.cells
  single : (patch.edges.map fun edge => (edge.cell, edge.side)).Nodup

namespace Lattice

variable {lattice : Lattice}

def Plain (lattice : Lattice) : Prop := ∀ patch ∈ lattice.patches, patch.Plain

/-- No cell belongs to two patches. -/
def Apart (lattice : Lattice) : Prop :=
  lattice.patches.Pairwise fun patch other => patch.cells.Disjoint other.cells

theorem patchAt?_eq_none_iff {cell : Cell} :
    lattice.patchAt? cell = none ↔ lattice.isFree cell = true := by
  rw [isFree, Option.isNone_iff_eq_none]

theorem Apart.patchAt?_eq_some_iff (apart : lattice.Apart) {cell : Cell} {patch : Patch} :
    lattice.patchAt? cell = some patch ↔ patch ∈ lattice.patches ∧ cell ∈ patch.cells := by
  constructor
  · exact mem_of_patchAt?
  · intro covers
    rcases covers with ⟨member, covered⟩
    cases found : lattice.patchAt? cell with
    | none =>
        have free := isFree_iff.mp (patchAt?_eq_none_iff.mp found)
        exact absurd (List.mem_flatMap.mpr ⟨patch, member, covered⟩) free
    | some other =>
        rcases mem_of_patchAt? found with ⟨otherMember, otherCovered⟩
        have symmetric : Std.Symm fun patch other : Patch => patch.cells.Disjoint other.cells :=
          ⟨fun _ _ separate _ inSecond inFirst => separate inFirst inSecond⟩
        by_contra different
        have separate := apart.forall otherMember member fun same => different (congrArg some same)
        exact separate otherCovered covered

/-- A gate is on a cell of its patch. -/
theorem Gate.patchAt?_eq (plain : lattice.Plain) (apart : lattice.Apart) {cell : Cell}
    {basis : Pauli} {edge : Edge} (gate : lattice.Gate cell basis edge) :
    lattice.patchAt? edge.cell = lattice.patchAt? cell := by
  rcases gate.patch with ⟨patch, found, member⟩
  have patchMember := (mem_of_patchAt? found).1
  rw [found, apart.patchAt?_eq_some_iff]
  exact ⟨patchMember, (plain patch patchMember).own edge member⟩

theorem Gate.mem_cells (plain : lattice.Plain) {cell : Cell} {basis : Pauli} {edge : Edge}
    (gate : lattice.Gate cell basis edge) : edge.cell ∈ lattice.cells := by
  rcases gate.patch with ⟨patch, found, member⟩
  have patchMember := (mem_of_patchAt? found).1
  exact List.mem_flatMap.mpr ⟨patch, patchMember, (plain patch patchMember).own edge member⟩

theorem Open.patchAt?_eq {cell : Cell} (isOpen : lattice.Open cell) :
    lattice.patchAt? cell = none :=
  patchAt?_eq_none_iff.mpr isOpen.2

end Lattice

namespace Route

variable {lattice : Lattice}

theorem Valid.exists_patchAt? {request : Request} (valid : Valid lattice request)
    {entry : Cell × Pauli} (member : entry ∈ request) :
    ∃ patch, lattice.patchAt? entry.1 = some patch := by
  rcases Option.bind_eq_some_iff.mp (valid.represents entry member) with ⟨patch, found, _⟩
  exact ⟨patch, found⟩

/-- The entries of a valid request are about different patches. -/
theorem Valid.eq_of_patchAt? {request : Request} (valid : Valid lattice request)
    {entry other : Cell × Pauli} (member : entry ∈ request) (otherMember : other ∈ request)
    (same : lattice.patchAt? entry.1 = lattice.patchAt? other.1) : entry = other := by
  have represents := valid.represents entry member
  rw [Lattice.representative?, same] at represents
  have sameCell := Option.some.inj (represents.symm.trans (valid.represents other otherMember))
  exact List.inj_on_of_nodup_map valid.distinct member otherMember sameCell

theorem Valid.representative?_eq {request : Request} (valid : Valid lattice request)
    {entry : Cell × Pauli} (member : entry ∈ request) {cell : Cell}
    (same : lattice.patchAt? cell = lattice.patchAt? entry.1) :
    lattice.representative? cell = some entry.1 := by
  rw [← valid.represents entry member, Lattice.representative?, Lattice.representative?, same]

/-- The gates of the patches of a request are on cells where these patches are found. -/
def Foremost (lattice : Lattice) (request : Request) : Prop :=
  ∀ entry ∈ request, ∀ edge, lattice.Gate entry.1 entry.2 edge →
    lattice.patchAt? edge.cell = lattice.patchAt? entry.1

theorem foremost_of_apart (plain : lattice.Plain) (apart : lattice.Apart) (request : Request) :
    Foremost lattice request := fun _ _ _ gate => gate.patchAt?_eq plain apart

/-- A path from an edge of one patch across other cells to an edge of another patch. -/
structure Span where
  leaving : Edge
  middle : List Cell
  entering : Edge

def Span.path (span : Span) : List Cell :=
  span.leaving.cell :: (span.middle ++ [span.entering.cell])

/-- A span between gates for the operators of two patches, with open cells between them. -/
structure Span.Connects (lattice : Lattice) (source target : Cell × Pauli) (span : Span) :
    Prop where
  leaving : lattice.Gate source.1 source.2 span.leaving
  entering : lattice.Gate target.1 target.2 span.entering
  head : span.middle.head? = some span.leaving.beyond
  last : span.middle.getLast? = some span.entering.beyond
  chain : span.middle.IsChain Cell.Beside
  isOpen : ∀ cell ∈ span.middle, lattice.Open cell

namespace Span.Connects

variable {source target : Cell × Pauli} {span : Span}
  (connects : span.Connects lattice source target)

include connects

theorem beside : span.path.IsChain Cell.Beside := by
  have whole : (span.middle ++ [span.entering.cell]).IsChain Cell.Beside := by
    rw [List.isChain_append]
    refine ⟨connects.chain, .singleton _, fun cell isLast next isNext => ?_⟩
    rw [connects.last, Option.mem_some_iff] at isLast
    rw [List.head?_cons, Option.mem_some_iff] at isNext
    rw [← isLast, ← isNext]
    exact Cell.Beside.symm ⟨span.entering.side, rfl⟩
  refine List.isChain_cons.mpr ⟨fun next isNext => ?_, whole⟩
  rw [List.head?_append, connects.head, Option.some_or, Option.mem_some_iff] at isNext
  exact ⟨span.leaving.side, isNext.symm⟩

theorem path_eq : ∃ rest, span.path = span.leaving.cell :: span.leaving.beyond :: rest := by
  rcases List.head?_eq_some_iff.mp connects.head with ⟨rest, split⟩
  exact ⟨rest ++ [span.entering.cell], by rw [Span.path, split, List.cons_append]⟩

theorem exists_path_eq_append : ∃ others,
    span.path = others ++ [span.entering.beyond, span.entering.cell] := by
  rcases List.getLast?_eq_some_iff.mp connects.last with ⟨others, split⟩
  exact ⟨span.leaving.cell :: others, by simp [Span.path, split]⟩

theorem two_lt_length : 2 < span.path.length := by
  have nonempty := List.length_pos_of_mem (List.mem_of_head? connects.head)
  rw [Span.path, List.length_cons, List.length_append, List.length_singleton]
  omega

end Span.Connects

/-! ## Ways that cross the gates -/

section Ways

variable {source : Cell × Pauli} {targets : Request}
  (foremost : Foremost lattice (source :: targets)) (valid : Valid lattice (source :: targets))

include foremost valid

/-- Once a way has entered a target it stays there. -/
theorem patchAt?_eq_of_linked {target : Cell × Pauli} (member : target ∈ targets)
    {cell next : Cell} (inTarget : lattice.patchAt? cell = lattice.patchAt? target.1)
    (linked : Linked lattice (source :: targets) cell next) :
    lattice.patchAt? next = lattice.patchAt? target.1 := by
  rcases valid.exists_patchAt? (List.mem_cons_of_mem _ member) with ⟨patch, covers⟩
  have notSource : lattice.patchAt? cell ≠ lattice.patchAt? source.1 := fun inSource =>
    valid.ne_of_mem member (congrArg Prod.fst (valid.eq_of_patchAt? List.mem_cons_self
      (List.mem_cons_of_mem _ member) (inSource.symm.trans inTarget)))
  cases linked with
  | adjacent side isOpen _ =>
      rw [isOpen.patchAt?_eq, covers] at inTarget
      cases inTarget
  | toGate isHead =>
      cases isHead
      exact absurd rfl notSource
  | leave isHead gate =>
      cases isHead
      exact absurd (foremost _ List.mem_cons_self _ gate) notSource
  | enter _ gate =>
      rw [gate.isOpen.patchAt?_eq, covers] at inTarget
      cases inTarget
  | fromGate isTarget gate =>
      exact (foremost _ (.tail _ isTarget) _ gate).symm.trans inTarget

theorem patchAt?_eq_of_mem_chain {target : Cell × Pauli} (member : target ∈ targets)
    {cell : Cell} {rest : List Cell}
    (inTarget : lattice.patchAt? cell = lattice.patchAt? target.1)
    (chain : (cell :: rest).IsChain (Linked lattice (source :: targets))) :
    ∀ other ∈ cell :: rest, lattice.patchAt? other = lattice.patchAt? target.1 := by
  induction rest generalizing cell with
  | nil => simpa using inTarget
  | cons next rest induction =>
      rcases List.isChain_cons_cons.mp chain with ⟨linked, chain⟩
      have nextIn := patchAt?_eq_of_linked foremost valid member inTarget linked
      exact List.forall_mem_cons.mpr ⟨inTarget, induction nextIn chain⟩

/-- From an open cell, a way crosses open cells up to a gate of its target. -/
theorem exists_enter {target : Cell × Pauli} (member : target ∈ targets) {cell : Cell}
    {rest : List Cell} (chain : (cell :: rest).IsChain (Linked lattice (source :: targets)))
    (last : (cell :: rest).getLast? = some target.1) (isOpen : lattice.Open cell) :
    ∃ middle entering back, cell :: rest = middle ++ entering.cell :: back ∧
      lattice.Gate target.1 target.2 entering ∧ middle.head? = some cell ∧
      middle.getLast? = some entering.beyond ∧ middle.IsChain Cell.Beside ∧
      (∀ other ∈ middle, lattice.Open other) ∧
      ∀ other ∈ back, lattice.patchAt? other = lattice.patchAt? target.1 := by
  have covered : ∀ entry ∈ source :: targets, lattice.patchAt? cell ≠ lattice.patchAt? entry.1 := by
    intro entry entryMember same
    rcases valid.exists_patchAt? entryMember with ⟨patch, covers⟩
    rw [isOpen.patchAt?_eq, covers] at same
    cases same
  induction rest generalizing cell with
  | nil =>
      rw [List.getLast?_singleton, Option.some.injEq] at last
      exact absurd (congrArg lattice.patchAt? last) (covered target (.tail _ member))
  | cons next rest induction =>
      rcases List.isChain_cons_cons.mp chain with ⟨linked, nextChain⟩
      rw [List.getLast?_cons_cons] at last
      cases linked with
      | adjacent side _ nextOpen =>
          have nextCovered : ∀ entry ∈ source :: targets,
              lattice.patchAt? (cell.shift side) ≠ lattice.patchAt? entry.1 := by
            rw [nextOpen.patchAt?_eq, ← isOpen.patchAt?_eq]
            exact covered
          rcases induction nextChain last nextOpen nextCovered with
            ⟨middle, entering, back, split, gate, head, final, beside, allOpen, inTarget⟩
          refine ⟨cell :: middle, entering, back, congrArg (cell :: ·) split, gate, rfl, ?_, ?_,
            List.forall_mem_cons.mpr ⟨isOpen, allOpen⟩, inTarget⟩
          · rw [List.getLast?_cons, final]
            rfl
          · refine List.isChain_cons.mpr ⟨fun other isHead => ?_, beside⟩
            rw [head, Option.mem_some_iff] at isHead
            exact ⟨side, isHead.symm⟩
      | toGate isHead =>
          cases isHead
          exact absurd rfl (covered _ List.mem_cons_self)
      | leave isHead gate =>
          cases isHead
          exact absurd (foremost _ List.mem_cons_self _ gate) (covered _ List.mem_cons_self)
      | @enter entered basis edge isTarget gate =>
          have inTarget := patchAt?_eq_of_mem_chain foremost valid isTarget
            (foremost _ (.tail _ isTarget) _ gate) nextChain
          have same := inTarget target.1 (List.mem_of_getLast? last)
          have isSame := valid.eq_of_patchAt? (List.mem_cons_of_mem _ member)
            (List.mem_cons_of_mem _ isTarget) same
          subst isSame
          refine ⟨[edge.beyond], edge, rest, rfl, gate, rfl, rfl, .singleton _,
            List.forall_mem_singleton.mpr isOpen, fun other isLater => ?_⟩
          exact inTarget other (.tail _ isLater)
      | fromGate isTarget gate =>
          have member := List.mem_cons_of_mem source isTarget
          exact absurd (foremost _ member _ gate) (covered _ member)

/-- A way from the source to a target leaves the source through a gate. -/
theorem exists_leave {target : Cell × Pauli} (member : target ∈ targets) {cell : Cell}
    {rest : List Cell} (chain : (cell :: rest).IsChain (Linked lattice (source :: targets)))
    (last : (cell :: rest).getLast? = some target.1)
    (inSource : lattice.patchAt? cell = lattice.patchAt? source.1) :
    ∃ front leaving later, cell :: rest = front ++ leaving.cell :: leaving.beyond :: later ∧
      lattice.Gate source.1 source.2 leaving ∧
      ∀ other ∈ front, lattice.patchAt? other = lattice.patchAt? source.1 := by
  rcases valid.exists_patchAt? List.mem_cons_self with ⟨patch, covers⟩
  have notTarget : ∀ entry ∈ targets, lattice.patchAt? source.1 ≠ lattice.patchAt? entry.1 :=
    fun entry entryMember same => valid.ne_of_mem entryMember (congrArg Prod.fst
      (valid.eq_of_patchAt? List.mem_cons_self (List.mem_cons_of_mem _ entryMember) same))
  induction rest generalizing cell with
  | nil =>
      rw [List.getLast?_singleton, Option.some.injEq] at last
      rw [last] at inSource
      exact absurd inSource.symm (notTarget target member)
  | cons next rest induction =>
      rcases List.isChain_cons_cons.mp chain with ⟨linked, nextChain⟩
      rw [List.getLast?_cons_cons] at last
      cases linked with
      | adjacent side isOpen _ =>
          rw [isOpen.patchAt?_eq, covers] at inSource
          cases inSource
      | toGate isHead gate =>
          cases isHead
          rcases induction nextChain last (foremost _ List.mem_cons_self _ gate) with
            ⟨front, leaving, later, split, leavingGate, frontIn⟩
          exact ⟨_ :: front, leaving, later, congrArg (List.cons _) split, leavingGate,
            List.forall_mem_cons.mpr ⟨rfl, frontIn⟩⟩
      | @leave _ _ edge isHead gate =>
          cases isHead
          exact ⟨[], edge, rest, rfl, gate, nofun⟩
      | enter _ gate =>
          rw [gate.isOpen.patchAt?_eq, covers] at inSource
          cases inSource
      | fromGate isTarget gate =>
          have gateIn := foremost _ (.tail _ isTarget) _ gate
          exact absurd (inSource.symm.trans gateIn) (notTarget _ isTarget)

end Ways

/-! ## Trimming -/

/-- Trimming drops the cells of the first patch except for the last one. -/
theorem trimStart_append {source last second : Cell} {front rest : List Cell}
    (inSource : ∀ cell ∈ front, lattice.representative? cell = some source)
    (lastIn : lattice.representative? last = some source)
    (leaves : lattice.representative? second ≠ some source) (longer : rest ≠ []) :
    trimStart lattice source (front ++ last :: second :: rest) = last :: second :: rest := by
  have step (first next : Cell) {others : List Cell} (more : others ≠ []) :
      trimStart lattice source (first :: next :: others) =
        if lattice.representative? next = some source then
          trimStart lattice source (next :: others)
        else first :: next :: others := by
    rcases List.exists_cons_of_ne_nil more with ⟨third, others, rfl⟩
    exact trimStart_cons lattice source first next third others
  induction front with
  | nil => rw [List.nil_append, step last second longer, if_neg leaves]
  | cons first front induction =>
      rcases List.forall_mem_cons.mp inSource with ⟨_, inSource⟩
      cases front with
      | nil =>
          rw [List.cons_append, List.nil_append, step _ _ (by simp), if_pos lastIn]
          exact induction nofun
      | cons next front =>
          rw [List.cons_append, List.cons_append, step _ _ (by simp),
            if_pos (inSource next List.mem_cons_self), ← List.cons_append, induction inSource]

/-- Trimming leaves the span of a way that starts and ends within the patches of the span. -/
theorem Span.Connects.trim_eq {request : Request} (foremost : Foremost lattice request)
    (valid : Valid lattice request) {source target : Cell × Pauli} (isSource : source ∈ request)
    (isTarget : target ∈ request) {span : Span} (connects : span.Connects lattice source target)
    {front back : List Cell}
    (inSource : ∀ cell ∈ front, lattice.patchAt? cell = lattice.patchAt? source.1)
    (inTarget : ∀ cell ∈ back, lattice.patchAt? cell = lattice.patchAt? target.1)
    (head : (front ++ (span.path ++ back)).head? = some source.1)
    (last : (front ++ (span.path ++ back)).getLast? = some target.1) :
    trim lattice (front ++ (span.path ++ back)) = span.path := by
  have notRepresented {entry : Cell} : ∀ cell ∈ span.middle,
      lattice.representative? cell ≠ some entry := by
    intro cell isMiddle
    rw [Lattice.representative?, (connects.isOpen cell isMiddle).patchAt?_eq]
    exact (Option.some_ne_none entry).symm
  have long := connects.two_lt_length
  have forward : trimStart lattice source.1 (front ++ (span.path ++ back)) = span.path ++ back := by
    rcases connects.path_eq with ⟨rest, split⟩
    rw [split] at long ⊢
    apply trimStart_append
    · exact fun cell isFront => valid.representative?_eq isSource (inSource cell isFront)
    · exact valid.representative?_eq isSource (foremost source isSource _ connects.leaving)
    · exact notRepresented _ (List.mem_of_head? connects.head)
    · exact List.append_ne_nil_of_left_ne_nil (List.ne_nil_of_length_pos (by simpa using long)) back
  have backward : trimStart lattice target.1 (span.path ++ back).reverse = span.path.reverse := by
    rcases connects.exists_path_eq_append with ⟨others, split⟩
    rw [split] at long
    rw [split, List.reverse_append, List.reverse_append]
    apply trimStart_append
    · intro cell isBack
      exact valid.representative?_eq isTarget (inTarget cell (List.mem_reverse.mp isBack))
    · exact valid.representative?_eq isTarget (foremost target isTarget _ connects.entering)
    · exact notRepresented _ (List.mem_of_getLast? connects.last)
    · exact List.ne_nil_of_length_pos (by simpa using long)
  rw [Route.trim_eq head last, forward, backward, List.reverse_reverse]

/-- What is laid of a way between two patches is a span between them. -/
theorem exists_span {source target : Cell × Pauli} {targets : Request}
    (foremost : Foremost lattice (source :: targets)) (valid : Valid lattice (source :: targets))
    (member : target ∈ targets) {whole : List Cell}
    (way : Search.IsWay (Linked lattice (source :: targets)) source.1 target.1 whole) :
    ∃ span : Span, span.Connects lattice source target ∧ trim lattice whole = span.path := by
  rcases List.head?_eq_some_iff.mp way.head with ⟨rest, rfl⟩
  rcases exists_leave foremost valid member way.chain way.last rfl with
    ⟨front, leaving, later, split, leaves, inSource⟩
  have chain := way.chain
  have last := way.last
  rw [split] at chain last
  have laterChain : (leaving.beyond :: later).IsChain (Linked lattice (source :: targets)) :=
    (List.isChain_append.mp chain).2.1.tail
  rw [List.getLast?_append_of_ne_nil _ (by simp), List.getLast?_cons_cons] at last
  rcases exists_enter foremost valid member laterChain last leaves.isOpen with
    ⟨middle, entering, back, laterSplit, enters, head, final, beside, allOpen, inTarget⟩
  let span : Span := ⟨leaving, middle, entering⟩
  have connects : span.Connects lattice source target :=
    ⟨leaves, enters, head, final, beside, allOpen⟩
  have wholeEq : source.1 :: rest = front ++ (span.path ++ back) := by
    rw [split, laterSplit, Span.path, List.cons_append, List.append_assoc]
    rfl
  refine ⟨span, connects, ?_⟩
  have ends := And.intro way.head way.last
  rw [wholeEq] at ends ⊢
  exact connects.trim_eq foremost valid List.mem_cons_self (.tail _ member) inSource inTarget
    ends.1 ends.2

end Route

end LatticeSurgery
