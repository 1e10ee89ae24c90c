import LatticeSurgery.Proofs.Dependency.Paths
import Mathlib.Data.Finset.Card
import Mathlib.Data.Finset.Range
import Mathlib.Data.List.Nodup
import Mathlib.Data.List.TakeWhile

namespace LatticeSurgery

open Relation

/-! # Construction of a dependency graph

The way up from the frontier misses no node that depends on the new operation, except for
nodes above others that do. So the parents of a node are those nodes that depend on it and
reach no other one that does. -/

namespace DependencyGraph

variable {α : Type} {graph : DependencyGraph α}

/-! ## The way up from the frontier -/

/-- The node stands for an operation that depends on the new one. -/
def Dependent (graph : DependencyGraph α) (depends : α → Bool) (index : Nat) : Prop :=
  ∃ node, graph.nodes[index]? = some node ∧ depends node.operation = true

variable {depends : α → Bool}

theorem isDependent_iff {index : Nat} :
    graph.isDependent depends index = true ↔ graph.Dependent depends index := by
  rw [isDependent, operation?, Dependent]
  cases graph.nodes[index]? <;> simp

theorem Dependent.lt_size {index : Nat} (dependent : graph.Dependent depends index) :
    index < graph.size := by
  rcases dependent with ⟨_, found, _⟩
  exact (List.getElem?_eq_some_iff.mp found).1

/-- A node that the way up from the leaves comes to. -/
inductive Met (graph : DependencyGraph α) (depends : α → Bool) (leaves : List Nat) : Nat → Prop
  | leaf {node : Nat} (isLeaf : node ∈ leaves) : Met graph depends leaves node
  | up {parent child : Nat} (met : Met graph depends leaves child)
      (passes : ¬ graph.Dependent depends child) (edge : graph.Edge parent child) :
      Met graph depends leaves parent

namespace Met

variable {leaves : List Nat} {node : Nat}

theorem mono {others : List Nat} (subset : leaves ⊆ others)
    (met : graph.Met depends leaves node) : graph.Met depends others node := by
  induction met with
  | leaf isLeaf => exact .leaf (subset isLeaf)
  | up _ passes edge induction => exact .up induction passes edge

theorem lt_size (ordered : graph.Ordered) (inside : ∀ leaf ∈ leaves, leaf < graph.size)
    (met : graph.Met depends leaves node) : node < graph.size := by
  cases met with
  | leaf isLeaf => exact inside node isLeaf
  | up _ _ edge => exact Nat.lt_trans (ordered _ _ edge) edge.lt_size

/-- Nodes without children are met only when the way starts at them. -/
theorem mem_leaves (childless : ∀ child, ¬ graph.Edge node child)
    (met : graph.Met depends leaves node) : node ∈ leaves := by
  cases met with
  | leaf isLeaf => exact isLeaf
  | up _ _ edge => exact absurd edge (childless _)

end Met

/-- What holds on the way up from the leaves while nodes wait in a queue. -/
structure Ascends (graph : DependencyGraph α) (depends : α → Bool) (leaves queue : List Nat)
    (ascent : Ascent) : Prop where
  met : ∀ node, node ∈ ascent.visited ∨ node ∈ queue → graph.Met depends leaves node
  leaf : ∀ leaf ∈ leaves, leaf ∈ ascent.visited ∨ leaf ∈ queue
  /-- The way goes on from every visited node that does not end it. -/
  closed : ∀ child ∈ ascent.visited, ¬ graph.Dependent depends child →
    ∀ parent, graph.Edge parent child → parent ∈ ascent.visited ∨ parent ∈ queue
  found : ∀ node, node ∈ ascent.found ↔ node ∈ ascent.visited ∧ graph.Dependent depends node
  nodup : ascent.found.Nodup

namespace Ascends

variable {leaves queue rest : List Nat} {ascent : Ascent} {node : Nat}

theorem start : graph.Ascends depends [] [] ⟨∅, []⟩ where
  met := by simp
  leaf := by simp
  closed := by simp
  found := by simp
  nodup := List.nodup_nil

theorem add_leaf (ascends : graph.Ascends depends leaves [] ascent) (leaf : Nat) :
    graph.Ascends depends (leaves ++ [leaf]) [leaf] ascent where
  met := by
    rintro node (visited | waits)
    · exact (ascends.met node (.inl visited)).mono (List.subset_append_left _ _)
    · exact .leaf (List.mem_append_right _ waits)
  leaf := by
    intro other member
    rcases List.mem_append.mp member with old | new
    · exact .inl ((ascends.leaf other old).resolve_right List.not_mem_nil)
    · exact .inr new
  closed := by
    intro child visited passes parent edge
    exact .inl ((ascends.closed child visited passes parent edge).resolve_right List.not_mem_nil)
  found := ascends.found
  nodup := ascends.nodup

/-- Nodes that were visited before do not have to wait. -/
theorem skip (ascends : graph.Ascends depends leaves queue ascent) :
    graph.Ascends depends leaves (queue.dropWhile ascent.visited.contains) ascent := by
  have known {node : Nat} (waits : node ∈ ascent.visited ∨ node ∈ queue) :
      node ∈ ascent.visited ∨ node ∈ queue.dropWhile ascent.visited.contains := by
    rcases waits with visited | waits
    · exact .inl visited
    · rw [← List.takeWhile_append_dropWhile (p := ascent.visited.contains) (l := queue),
        List.mem_append] at waits
      exact waits.imp_left fun skipped =>
        Std.HashSet.contains_iff_mem.mp (List.all_eq_true.mp List.all_takeWhile _ skipped)
  constructor
  case met =>
    exact fun node waits => ascends.met node (waits.imp_right ((List.dropWhile_suffix _).subset ·))
  case leaf => exact fun leaf member => known (ascends.leaf leaf member)
  case closed =>
    exact fun child visited passes parent edge =>
      known (ascends.closed child visited passes parent edge)
  case found => exact ascends.found
  case nodup => exact ascends.nodup

section Visit

variable (ascends : graph.Ascends depends leaves (node :: rest) ascent)

include ascends

/-- A visit ends the wait of a node, and parents of the node may begin to wait. -/
private theorem visit {waiting found : List Nat} (remain : rest ⊆ waiting)
    (added : ∀ other ∈ waiting,
      other ∈ rest ∨ ¬ graph.Dependent depends node ∧ graph.Edge other node)
    (goes : ¬ graph.Dependent depends node → ∀ parent, graph.Edge parent node → parent ∈ waiting)
    (ends : ∀ other,
      other ∈ found ↔ other ∈ ascent.found ∨ other = node ∧ graph.Dependent depends node)
    (nodup : found.Nodup) :
    graph.Ascends depends leaves waiting ⟨ascent.visited.insert node, found⟩ := by
  have visited {other : Nat} :
      other ∈ ascent.visited.insert node ↔ other = node ∨ other ∈ ascent.visited := by
    rw [Std.HashSet.mem_insert, beq_iff_eq, eq_comm]
  have known {other : Nat} (waits : other ∈ ascent.visited ∨ other ∈ node :: rest) :
      other ∈ ascent.visited.insert node ∨ other ∈ waiting := by
    rw [visited]
    rcases waits with old | waits
    · exact .inl (.inr old)
    · exact (List.mem_cons.mp waits).imp .inl (remain ·)
  have here := ascends.met node (.inr List.mem_cons_self)
  constructor
  case met =>
    intro other waits
    rcases waits with isVisited | waits
    · rcases visited.mp isVisited with rfl | old
      · exact here
      · exact ascends.met other (.inl old)
    · rcases added other waits with old | ⟨passes, edge⟩
      · exact ascends.met other (.inr (.tail _ old))
      · exact .up here passes edge
  case leaf => exact fun leaf member => known (ascends.leaf leaf member)
  case closed =>
    intro child isVisited passes parent edge
    rcases visited.mp isVisited with rfl | old
    · exact .inr (goes passes parent edge)
    · exact known (ascends.closed child old passes parent edge)
  case found =>
    intro other
    rw [ends, ascends.found, visited, or_and_right, or_comm]
    refine or_congr_left (and_congr_right fun same => ?_)
    rw [same]
  case nodup => exact nodup

/-- The way ends at a node that depends on the new operation. -/
theorem visit_dependent (fresh : node ∉ ascent.visited)
    (dependent : graph.Dependent depends node) :
    graph.Ascends depends leaves rest ⟨ascent.visited.insert node, ascent.found ++ [node]⟩ := by
  apply ascends.visit (List.Subset.refl rest) (fun _ => .inl) (absurd dependent)
  · simp [dependent]
  · rw [← List.concat_eq_append]
    exact ascends.nodup.concat fun again => fresh ((ascends.found node).mp again).1

/-- The parents of any other node have to wait. -/
theorem visit_passing (passes : ¬ graph.Dependent depends node) :
    graph.Ascends depends leaves (rest ++ (graph.incoming node).reverse)
      ⟨ascent.visited.insert node, ascent.found⟩ := by
  apply ascends.visit (List.subset_append_left _ _)
  · simp [passes, mem_incoming]
  · simp only [List.mem_append, List.mem_reverse, mem_incoming]
    exact fun _ parent edge => .inr edge
  · simp [passes]
  · exact ascends.nodup

end Visit

/-- The nodes that have not been visited. -/
def unvisited (graph : DependencyGraph α) (ascent : Ascent) : Finset Nat :=
  {node ∈ Finset.range graph.size | node ∉ ascent.visited}

theorem mem_unvisited : node ∈ unvisited graph ascent ↔
    node < graph.size ∧ node ∉ ascent.visited := by
  rw [unvisited, Finset.mem_filter, Finset.mem_range]

theorem card_unvisited_insert (found : List Nat) (inside : node < graph.size)
    (fresh : node ∉ ascent.visited) :
    (unvisited graph ⟨ascent.visited.insert node, found⟩).card + 1 =
      (unvisited graph ascent).card := by
  have erased : unvisited graph ⟨ascent.visited.insert node, found⟩ =
      (unvisited graph ascent).erase node := by
    ext other
    simp only [mem_unvisited, Finset.mem_erase, Std.HashSet.mem_insert, beq_iff_eq]
    grind
  rw [erased, Finset.card_erase_add_one (mem_unvisited.mpr ⟨inside, fresh⟩)]

/-- Every visit spends one unit of fuel, and with enough of it nothing waits any longer. -/
theorem ascend (ordered : graph.Ordered) (inside : ∀ leaf ∈ leaves, leaf < graph.size)
    {fuel : Nat} (ascends : graph.Ascends depends leaves queue ascent)
    (enough : (unvisited graph ascent).card ≤ fuel) :
    graph.Ascends depends leaves [] (graph.ascend depends fuel queue ascent) := by
  induction fuel generalizing queue ascent with
  | zero =>
      have none := Finset.card_eq_zero.mp (Nat.le_zero.mp enough)
      have all : queue.dropWhile ascent.visited.contains = [] := by
        rw [List.dropWhile_eq_nil_iff]
        intro node waits
        by_contra fresh
        have member : node ∈ unvisited graph ascent := mem_unvisited.mpr
          ⟨(ascends.met node (.inr waits)).lt_size ordered inside, by simpa using fresh⟩
        rw [none] at member
        exact absurd member (Finset.notMem_empty node)
      exact all ▸ ascends.skip
  | succ fuel induction =>
      have skipped := ascends.skip
      rw [DependencyGraph.ascend]
      cases waiting : queue.dropWhile ascent.visited.contains with
      | nil =>
          rw [waiting] at skipped
          exact skipped
      | cons node rest =>
          rw [waiting] at skipped
          have fresh : node ∉ ascent.visited := by
            have first := List.head?_dropWhile_not ascent.visited.contains queue
            rw [waiting] at first
            simpa using first
          have spent (found : List Nat) :
              (unvisited graph ⟨ascent.visited.insert node, found⟩).card ≤ fuel := by
            have := card_unvisited_insert found
              ((skipped.met node (.inr List.mem_cons_self)).lt_size ordered inside) fresh
            omega
          dsimp only
          split
          · next dependent =>
              exact induction (skipped.visit_dependent fresh (isDependent_iff.mp dependent))
                (spent _)
          · next passes =>
              rw [isDependent_iff] at passes
              exact induction (skipped.visit_passing passes) (spent _)

theorem ascendFrom (ordered : graph.Ordered) {leaf : Nat}
    (inside : ∀ node ∈ leaves ++ [leaf], node < graph.size)
    (fresh : leaf ∉ ascent.visited) (ascends : graph.Ascends depends leaves [] ascent) :
    graph.Ascends depends (leaves ++ [leaf]) [] (graph.ascendFrom depends ascent leaf) := by
  have first := ascends.add_leaf leaf
  rw [DependencyGraph.ascendFrom]
  split
  · next dependent => exact first.visit_dependent fresh (isDependent_iff.mp dependent)
  · next passes =>
      rw [isDependent_iff] at passes
      refine (first.visit_passing passes).ascend ordered inside ?_
      calc (unvisited graph _).card
          ≤ (Finset.range graph.size).card := Finset.card_filter_le _ _
        _ = graph.size := Finset.card_range _

end Ascends

/-! ## Candidates -/

/-- The frontier consists of the nodes without children. -/
def IsFrontier (graph : DependencyGraph α) (frontier : List Nat) : Prop :=
  ∀ leaf, leaf ∈ frontier ↔ leaf < graph.size ∧ ∀ child, ¬graph.Edge leaf child

section Candidates

variable {frontier : List Nat} (isFrontier : graph.IsFrontier frontier) (ordered : graph.Ordered)
  (distinct : frontier.Nodup)

include isFrontier ordered distinct

/-- Leaf by leaf the way goes up from the whole frontier. -/
theorem ascends_frontier (depends : α → Bool) :
    ∃ ascent, graph.candidates depends frontier = ascent.found ∧
      graph.Ascends depends frontier [] ascent := by
  have run {first rest : List Nat} {ascent : Ascent} (split : first ++ rest = frontier)
      (ascends : graph.Ascends depends first [] ascent) :
      graph.Ascends depends frontier [] (rest.foldl (graph.ascendFrom depends) ascent) := by
    induction rest generalizing first ascent with
    | nil =>
        rw [List.append_nil] at split
        exact split ▸ ascends
    | cons leaf rest induction =>
        have next : (first ++ [leaf]) ++ rest = frontier := by
          rw [← split, List.append_assoc, List.singleton_append]
        have within : ∀ node ∈ first ++ [leaf], node ∈ frontier :=
          fun node member => next ▸ List.mem_append_left _ member
        have isLeaf := (isFrontier leaf).mp (within leaf (by simp))
        have new : leaf ∉ first := by
          rw [← next, List.nodup_append] at distinct
          have := distinct.1
          rw [List.nodup_append] at this
          exact fun again => this.2.2 leaf again leaf (List.mem_singleton_self leaf) rfl
        refine induction next (ascends.ascendFrom ordered ?_ ?_)
        · exact fun node member => ((isFrontier node).mp (within node member)).1
        · exact fun visited => new ((ascends.met leaf (.inl visited)).mem_leaves isLeaf.2)
  exact ⟨_, rfl, run (List.nil_append _) .start⟩

/-- The candidates are the nodes depending on the new operation that the way up comes to. -/
theorem mem_candidates {index : Nat} :
    index ∈ graph.candidates depends frontier ↔
      graph.Met depends frontier index ∧ graph.Dependent depends index := by
  rcases ascends_frontier isFrontier ordered distinct depends with
    ⟨ascent, same, ascends⟩
  have visited : index ∈ ascent.visited ↔ graph.Met depends frontier index := by
    constructor
    · exact fun visited => ascends.met index (.inl visited)
    · intro met
      induction met with
      | leaf isLeaf => exact (ascends.leaf _ isLeaf).resolve_right List.not_mem_nil
      | up _ passes edge visited =>
          exact (ascends.closed _ visited passes _ edge).resolve_right List.not_mem_nil
  rw [same, ascends.found, visited]

theorem nodup_candidates : (graph.candidates depends frontier).Nodup := by
  rcases ascends_frontier isFrontier ordered distinct depends with
    ⟨ascent, same, ascends⟩
  exact same ▸ ascends.nodup

/-- The way up from a leaf ends at a candidate, or it goes on. -/
theorem met_or_exists_candidate {source leaf : Nat} (isLeaf : leaf ∈ frontier)
    (path : ReflTransGen graph.Edge source leaf) :
    graph.Met depends frontier source ∨
      ∃ candidate ∈ graph.candidates depends frontier, TransGen graph.Edge source candidate := by
  induction path using ReflTransGen.head_induction_on with
  | refl => exact .inl (.leaf isLeaf)
  | @head source middle edge _ induction =>
      rcases induction with met | ⟨candidate, isCandidate, path⟩
      · by_cases dependent : graph.Dependent depends middle
        · have isCandidate := (mem_candidates isFrontier ordered distinct).mpr ⟨met, dependent⟩
          exact .inr ⟨middle, isCandidate, .single edge⟩
        · exact .inl (.up met dependent edge)
      · exact .inr ⟨candidate, isCandidate, .head edge path⟩

omit distinct in
theorem exists_path_of_lt_size {node : Nat} (inside : node < graph.size) :
    ∃ leaf ∈ frontier, ReflTransGen graph.Edge node leaf := by
  generalize distance : graph.size - node = bound
  induction bound using Nat.strongRecOn generalizing node with
  | ind bound induction =>
      by_cases childless : ∀ child, ¬graph.Edge node child
      · exact ⟨node, (isFrontier node).mpr ⟨inside, childless⟩, .refl⟩
      · rcases Classical.not_forall_not.mp childless with ⟨child, edge⟩
        have larger := ordered node child edge
        rcases induction (graph.size - child) (by omega) edge.lt_size rfl with
          ⟨leaf, isLeaf, path⟩
        exact ⟨leaf, isLeaf, .head edge path⟩

/-- A node that depends on the new operation is a candidate, or it is above one. -/
theorem mem_candidates_or_above {index : Nat} (dependent : graph.Dependent depends index) :
    index ∈ graph.candidates depends frontier ∨
      ∃ candidate ∈ graph.candidates depends frontier, TransGen graph.Edge index candidate := by
  rcases exists_path_of_lt_size isFrontier ordered dependent.lt_size with ⟨leaf, isLeaf, path⟩
  exact (met_or_exists_candidate isFrontier ordered distinct isLeaf path).imp_left fun met =>
    (mem_candidates isFrontier ordered distinct).mpr ⟨met, dependent⟩

end Candidates

/-! ## Parents -/

theorem mem_nearest (ordered : graph.Ordered) {found : List Nat} {index : Nat} :
    index ∈ graph.nearest found ↔
      index ∈ found ∧ ∀ other ∈ found, ¬TransGen graph.Edge index other := by
  have above : index ∈ graph.ancestors (Std.HashSet.ofList found) ↔
      ∃ other ∈ found, TransGen graph.Edge index other := by
    rw [mem_ancestors_iff_path ordered]
    simp
  rw [nearest, List.mem_filter, Bool.not_eq_true', ← Bool.not_eq_true,
    Std.HashSet.contains_iff_mem, above, not_exists]
  simp only [not_and]

/-- The nearest nodes are those from which no path leads to another one. -/
theorem nearest_eq_filter (ordered : graph.Ordered) {found : List Nat}
    (inside : ∀ node ∈ found, node < graph.size) :
    graph.nearest found = found.filter fun node =>
      !found.any fun other => other ≠ node && graph.hasPath node other := by
  refine List.filter_congr fun node _ => congrArg not ?_
  rw [Bool.eq_iff_iff, Std.HashSet.contains_iff_mem, mem_ancestors_iff_path ordered,
    List.any_eq_true]
  refine exists_congr fun other => ?_
  rw [Std.HashSet.mem_ofList, List.contains_iff_mem]
  refine and_congr_right fun member => ?_
  rw [Bool.and_eq_true, decide_eq_true_eq, hasPath_iff ordered, reflTransGen_iff_eq_or_transGen]
  constructor
  · exact fun path => ⟨Nat.ne_of_gt (ordered.lt_of_path path), inside other member, .inr path⟩
  · exact fun reached => reached.2.2.resolve_left reached.1

/-- The parents are the nodes that depend on the new operation and reach no other one. -/
theorem mem_parents_iff {frontier : List Nat} (isFrontier : graph.IsFrontier frontier)
    (ordered : graph.Ordered) (distinct : frontier.Nodup) {index : Nat} :
    index ∈ graph.nearest (graph.candidates depends frontier) ↔
      graph.Dependent depends index ∧
        ∀ other, graph.Dependent depends other → ¬TransGen graph.Edge index other := by
  have dependent_of {other : Nat} (isCandidate : other ∈ graph.candidates depends frontier) :
      graph.Dependent depends other :=
    ((mem_candidates isFrontier ordered distinct).mp isCandidate).2
  rw [mem_nearest ordered]
  constructor
  · rintro ⟨isCandidate, lowest⟩
    refine ⟨dependent_of isCandidate, fun other dependent path => ?_⟩
    rcases mem_candidates_or_above isFrontier ordered distinct dependent with
      otherCandidate | ⟨candidate, otherCandidate, further⟩
    · exact lowest other otherCandidate path
    · exact lowest candidate otherCandidate (path.trans further)
  · rintro ⟨dependent, lowest⟩
    refine ⟨?_, fun other isCandidate => lowest other (dependent_of isCandidate)⟩
    rcases mem_candidates_or_above isFrontier ordered distinct dependent with
      isCandidate | ⟨candidate, isCandidate, path⟩
    · exact isCandidate
    · exact absurd path (lowest candidate (dependent_of isCandidate))

/-! ## Adding a node -/

/-- The child stands for an earlier operation that the one of the parent depends on. -/
def Conflict (graph : DependencyGraph α) (depends : α → α → Bool) (parent child : Nat) : Prop :=
  parent < child ∧ ∃ earlier, graph.operation? child = some earlier ∧
    graph.Dependent (depends earlier) parent

variable {node : DependencyNode α} {parent child : Nat}

theorem size_addNode : (graph.addNode node).size = graph.size + 1 := by
  rw [size, addNode, List.length_append]
  rfl

theorem getElem?_addNode {index : Nat} (inside : index < graph.size) :
    (graph.addNode node).nodes[index]? = graph.nodes[index]? :=
  List.getElem?_append_left inside

theorem getElem?_addNode_size : (graph.addNode node).nodes[graph.size]? = some node :=
  List.getElem?_concat_length

theorem edge_addNode :
    (graph.addNode node).Edge parent child ↔
      graph.Edge parent child ∨ child = graph.size ∧ parent ∈ node.parents := by
  rw [edge_iff_exists, edge_iff_exists]
  by_cases inside : child < graph.size
  · rw [getElem?_addNode inside]
    simp [Nat.ne_of_lt inside]
  · constructor
    · rintro ⟨found, isFound, member⟩
      have last : child < (graph.addNode node).size := (List.getElem?_eq_some_iff.mp isFound).1
      rw [size_addNode] at last
      rw [show child = graph.size by omega, getElem?_addNode_size] at isFound
      cases isFound
      exact .inr ⟨by omega, member⟩
    · rintro (⟨found, isFound, _⟩ | ⟨rfl, member⟩)
      · exact absurd (List.getElem?_eq_some_iff.mp isFound).1 inside
      · exact ⟨node, getElem?_addNode_size, member⟩

theorem dependent_addNode {depends : α → Bool} {index : Nat} (inside : index < graph.size) :
    (graph.addNode node).Dependent depends index ↔ graph.Dependent depends index := by
  rw [Dependent, Dependent, getElem?_addNode inside]

theorem Conflict.lt_size {depends : α → α → Bool} (conflict : graph.Conflict depends parent child) :
    child < graph.size := by
  rcases conflict with ⟨_, earlier, found, _⟩
  rw [operation?, Option.map_eq_some_iff] at found
  rcases found with ⟨_, found, _⟩
  exact (List.getElem?_eq_some_iff.mp found).1

theorem conflict_addNode {depends : α → α → Bool} :
    (graph.addNode node).Conflict depends parent child ↔
      graph.Conflict depends parent child ∨
        child = graph.size ∧ graph.Dependent (depends node.operation) parent := by
  by_cases inside : child < graph.size
  · have same : (graph.addNode node).operation? child = graph.operation? child := by
      rw [operation?, operation?, getElem?_addNode inside]
    rw [Conflict, Conflict, same, or_iff_left (fun last => Nat.ne_of_lt inside last.1)]
    refine and_congr_right fun lower => ?_
    simp only [dependent_addNode (Nat.lt_trans lower inside)]
  · constructor
    · intro conflict
      have last := conflict.lt_size
      rw [size_addNode] at last
      have here : child = graph.size := by omega
      rcases conflict with ⟨lower, earlier, found, dependent⟩
      rw [here, operation?, getElem?_addNode_size] at found
      cases found
      exact .inr ⟨here, (dependent_addNode (here ▸ lower)).mp dependent⟩
    · rintro (conflict | ⟨rfl, dependent⟩)
      · exact absurd conflict.lt_size inside
      · refine ⟨dependent.lt_size, node.operation, ?_, ?_⟩
        · rw [operation?, getElem?_addNode_size]
          rfl
        · exact (dependent_addNode dependent.lt_size).mpr dependent

/-- No path leads through the new node. -/
theorem path_addNode (ordered : (graph.addNode node).Ordered) {source target : Nat}
    (inside : target < graph.size) :
    TransGen (graph.addNode node).Edge source target ↔ TransGen graph.Edge source target := by
  constructor
  · intro path
    induction path with
    | single edge =>
        rcases edge_addNode.mp edge with edge | ⟨rfl, _⟩
        · exact .single edge
        · exact absurd inside (Nat.lt_irrefl _)
    | tail _ edge induction =>
        have lower := ordered _ _ edge
        rcases edge_addNode.mp edge with edge | ⟨rfl, _⟩
        · exact .tail (induction (Nat.lt_trans lower inside)) edge
        · exact absurd inside (Nat.lt_irrefl _)
  · exact fun path => path.lift id fun _ _ edge => edge_addNode.mpr (.inl edge)

end DependencyGraph

/-! ## Whole sequences -/

namespace DependencyDraft

open DependencyGraph

variable {α : Type} {depends : α → α → Bool} {draft : DependencyDraft α}

/-- What holds of a graph under construction. A node is a parent of another one when it
conflicts with it and reaches no other node that does. -/
structure Built (depends : α → α → Bool) (draft : DependencyDraft α) : Prop where
  ordered : draft.graph.Ordered
  nearest : ∀ parent child, draft.graph.Edge parent child ↔
    draft.graph.Conflict depends parent child ∧ ∀ other, draft.graph.Conflict depends other child →
      ¬TransGen draft.graph.Edge parent other
  nodup : ∀ node ∈ draft.graph.nodes, node.parents.Nodup
  frontier : draft.graph.IsFrontier draft.frontier
  frontier_nodup : draft.frontier.Nodup
  terminals : ∀ node, node ∈ draft.graph.terminals ↔
    node < draft.graph.size ∧ ∀ parent, ¬draft.graph.Edge parent node
  terminals_nodup : draft.graph.terminals.Nodup

theorem built_empty : (empty : DependencyDraft α).Built depends where
  ordered := fun _ _ edge => absurd edge.lt_size (Nat.not_lt_zero _)
  nearest := fun _ _ => ⟨fun edge => absurd edge.lt_size (Nat.not_lt_zero _),
    fun conflict => absurd conflict.1.lt_size (Nat.not_lt_zero _)⟩
  nodup := nofun
  frontier := fun _ => ⟨nofun, fun leaf => absurd leaf.1 (Nat.not_lt_zero _)⟩
  frontier_nodup := List.nodup_nil
  terminals := fun _ => ⟨nofun, fun node => absurd node.1 (Nat.not_lt_zero _)⟩
  terminals_nodup := List.nodup_nil

/-- The parents that a new operation receives. -/
def parentsOf (depends : α → α → Bool) (draft : DependencyDraft α) (operation : α) : List Nat :=
  draft.graph.nearest (draft.graph.candidates (depends operation) draft.frontier)

theorem Built.mem_parentsOf (built : draft.Built depends) {operation : α} {index : Nat} :
    index ∈ draft.parentsOf depends operation ↔
      draft.graph.Dependent (depends operation) index ∧
        ∀ other, draft.graph.Dependent (depends operation) other →
          ¬TransGen draft.graph.Edge index other :=
  mem_parents_iff built.frontier built.ordered built.frontier_nodup

theorem graph_addEarlier (operation : α) :
    (draft.addEarlier depends operation).graph =
      draft.graph.addNode ⟨operation, draft.parentsOf depends operation⟩ := rfl

theorem Built.ordered_addEarlier (built : draft.Built depends) (operation : α) :
    (draft.addEarlier depends operation).graph.Ordered := by
  intro parent child edge
  rcases edge_addNode.mp edge with edge | ⟨rfl, member⟩
  · exact built.ordered parent child edge
  · exact (built.mem_parentsOf.mp member).1.lt_size

theorem Built.nearest_addEarlier (built : draft.Built depends) (operation : α)
    (parent child : Nat) :
    (draft.addEarlier depends operation).graph.Edge parent child ↔
      (draft.addEarlier depends operation).graph.Conflict depends parent child ∧
        ∀ other, (draft.addEarlier depends operation).graph.Conflict depends other child →
          ¬TransGen (draft.addEarlier depends operation).graph.Edge parent other := by
  have ordered := built.ordered_addEarlier operation
  rw [graph_addEarlier] at ordered ⊢
  by_cases last : child = draft.graph.size
  · subst last
    have noEdge (other : Nat) : ¬draft.graph.Edge other draft.graph.size := fun edge =>
      Nat.lt_irrefl _ edge.lt_size
    have noConflict (other : Nat) : ¬draft.graph.Conflict depends other draft.graph.size :=
      fun conflict => Nat.lt_irrefl _ conflict.lt_size
    simp only [edge_addNode, conflict_addNode, noEdge, noConflict, true_and, false_or,
      built.mem_parentsOf]
    refine and_congr_right fun _ => forall_congr' fun other => ?_
    exact imp_congr_right fun dependent => not_congr (path_addNode ordered dependent.lt_size).symm
  · have old : (draft.graph.addNode ⟨operation, draft.parentsOf depends operation⟩).Edge parent
        child ↔ draft.graph.Edge parent child := by
      rw [edge_addNode, or_iff_left fun new => last new.1]
    have oldConflict (other : Nat) : (draft.graph.addNode
        ⟨operation, draft.parentsOf depends operation⟩).Conflict depends other child ↔
          draft.graph.Conflict depends other child := by
      rw [conflict_addNode, or_iff_left fun new => last new.1]
    simp only [old, oldConflict]
    rw [built.nearest]
    refine and_congr_right fun _ => forall_congr' fun other => ?_
    refine imp_congr_right fun conflict => not_congr (path_addNode ordered ?_).symm
    exact Nat.lt_trans conflict.1 conflict.lt_size

/-- Leaves are left out of the frontier when they become parents. -/
theorem Built.frontier_addEarlier (built : draft.Built depends) (operation : α) :
    (draft.addEarlier depends operation).graph.IsFrontier
      (draft.addEarlier depends operation).frontier := by
  have ordered := built.ordered_addEarlier operation
  -- A leaf reaches nothing, so it becomes a parent as soon as it depends on the operation.
  have isParent {leaf : Nat} (childless : ∀ child, ¬draft.graph.Edge leaf child) :
      draft.graph.Dependent (depends operation) leaf ↔
        leaf ∈ draft.parentsOf depends operation := by
    rw [built.mem_parentsOf, iff_self_and]
    intro _ other _ path
    rcases TransGen.head'_iff.mp path with ⟨child, edge, _⟩
    exact childless child edge
  intro leaf
  have kept : leaf ∈ (draft.addEarlier depends operation).frontier ↔
      (leaf ∈ draft.frontier ∧ ¬ draft.graph.Dependent (depends operation) leaf) ∨
        leaf = draft.graph.size := by
    simp [DependencyDraft.addEarlier, ← isDependent_iff]
  rw [kept, built.frontier, graph_addEarlier, size_addNode]
  constructor
  · rintro (⟨⟨inside, childless⟩, independent⟩ | rfl)
    · refine ⟨by omega, fun child edge => ?_⟩
      rcases edge_addNode.mp edge with edge | ⟨_, member⟩
      · exact childless child edge
      · exact independent ((isParent childless).mpr member)
    · refine ⟨by omega, fun child edge => ?_⟩
      have larger := ordered _ child edge
      have inside := edge.lt_size
      rw [size_addNode] at inside
      omega
  · rintro ⟨inside, childless⟩
    have oldChildless (child : Nat) : ¬draft.graph.Edge leaf child := fun edge =>
      childless child (edge_addNode.mpr (.inl edge))
    by_cases new : leaf = draft.graph.size
    · exact .inr new
    · refine .inl ⟨⟨by omega, oldChildless⟩, fun dependent => ?_⟩
      exact childless draft.graph.size
        (edge_addNode.mpr (.inr ⟨rfl, (isParent oldChildless).mp dependent⟩))

theorem Built.frontier_nodup_addEarlier (built : draft.Built depends) (operation : α) :
    (draft.addEarlier depends operation).frontier.Nodup := by
  have fresh : draft.graph.size ∉ draft.frontier := fun member =>
    Nat.lt_irrefl _ ((built.frontier _).mp member).1
  rw [DependencyDraft.addEarlier, ← List.concat_eq_append]
  exact (built.frontier_nodup.filter _).concat fun member => fresh (List.mem_filter.mp member).1

theorem Built.terminals_addEarlier (built : draft.Built depends) (operation : α) (node : Nat) :
    node ∈ (draft.addEarlier depends operation).graph.terminals ↔
      node < (draft.addEarlier depends operation).graph.size ∧
        ∀ parent, ¬(draft.addEarlier depends operation).graph.Edge parent node := by
  have member : node ∈ (draft.addEarlier depends operation).graph.terminals ↔
      node ∈ draft.graph.terminals ∨
        node = draft.graph.size ∧ draft.parentsOf depends operation = [] := by
    rw [graph_addEarlier, addNode]
    cases draft.parentsOf depends operation <;> simp
  rw [member, built.terminals, graph_addEarlier, size_addNode]
  constructor
  · rintro (⟨inside, orphan⟩ | ⟨rfl, none⟩)
    · refine ⟨by omega, fun parent edge => ?_⟩
      rcases edge_addNode.mp edge with edge | ⟨rfl, _⟩
      · exact orphan parent edge
      · exact Nat.lt_irrefl _ inside
    · refine ⟨by omega, fun parent edge => ?_⟩
      rcases edge_addNode.mp edge with edge | ⟨_, isParent⟩
      · exact Nat.lt_irrefl _ edge.lt_size
      · rw [none] at isParent
        cases isParent
  · rintro ⟨inside, orphan⟩
    by_cases new : node = draft.graph.size
    · refine .inr ⟨new, List.eq_nil_iff_forall_not_mem.mpr fun parent isParent => ?_⟩
      exact orphan parent (edge_addNode.mpr (.inr ⟨new, isParent⟩))
    · exact .inl ⟨by omega, fun parent edge => orphan parent (edge_addNode.mpr (.inl edge))⟩

theorem Built.addEarlier (built : draft.Built depends) (operation : α) :
    (draft.addEarlier depends operation).Built depends where
  ordered := built.ordered_addEarlier operation
  nearest := built.nearest_addEarlier operation
  nodup := by
    intro node member
    rcases List.mem_append.mp member with member | member
    · exact built.nodup node member
    · rw [List.mem_singleton.mp member]
      exact (nodup_candidates built.frontier built.ordered built.frontier_nodup).filter _
  frontier := built.frontier_addEarlier operation
  frontier_nodup := built.frontier_nodup_addEarlier operation
  terminals := built.terminals_addEarlier operation
  terminals_nodup := by
    have fresh : draft.graph.size ∉ draft.graph.terminals := fun member =>
      Nat.lt_irrefl _ ((built.terminals _).mp member).1
    rw [graph_addEarlier, addNode]
    cases draft.parentsOf depends operation with
    | nil =>
        simp only [List.isEmpty_nil, if_true, ← List.concat_eq_append]
        exact built.terminals_nodup.concat fresh
    | cons => exact built.terminals_nodup

theorem built_ofSequence (depends : α → α → Bool) (operations : List α) :
    (ofSequence depends operations).Built depends := by
  induction operations with
  | nil => exact built_empty
  | cons operation later induction => exact induction.addEarlier operation

end DependencyDraft

end LatticeSurgery
