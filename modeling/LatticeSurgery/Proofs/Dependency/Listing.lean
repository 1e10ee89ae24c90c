import LatticeSurgery.Proofs.Dependency.Blocks
import Mathlib.Data.List.Nodup
import Mathlib.Data.List.Perm.Subperm
import Mathlib.Data.Prod.Basic

namespace LatticeSurgery.DependencyGraph

/-! # Listings of a dependency graph

The walk from the terminals comes to every node, since each node that is no terminal has a
parent with a smaller number. So the listed edges are all edges. -/

variable {α : Type} {graph : DependencyGraph α}

/-! ## Children -/

theorem pairwise_children (graph : DependencyGraph α) (node : Nat) :
    (graph.children node).Pairwise (· < ·) := by
  have positions : graph.nodes.zipIdx.Pairwise fun first second => first.2 < second.2 := by
    rw [← List.pairwise_map (f := Prod.snd) (R := (· < ·)), List.zipIdx_map_snd]
    exact List.pairwise_lt_range'
  refine positions.filterMap _ fun first second order child isFirst other isSecond => ?_
  rw [Option.ite_none_right_eq_some, Option.some.injEq] at isFirst isSecond
  rwa [← isFirst.2, ← isSecond.2]

theorem nodup_children (graph : DependencyGraph α) (node : Nat) :
    (graph.children node).Nodup :=
  (graph.pairwise_children node).imp Nat.ne_of_lt

/-! ## The walk -/

/-- Nodes in an order in which they can be met on the way from the terminals. -/
structure Discovered (graph : DependencyGraph α) (seen : List Nat) : Prop where
  nodup : seen.Nodup
  inside : ∀ node ∈ seen, node < graph.size
  terminals : graph.terminals <+: seen
  /-- Only terminals come before all of their parents. -/
  parent : ∀ (position node : Nat), seen[position]? = some node → node ∉ graph.terminals →
    ∃ earlier < position, ∃ parent, seen[earlier]? = some parent ∧ graph.Edge parent node

namespace Discovered

variable {seen : List Nat} {node : Nat}

theorem start (inside : ∀ node ∈ graph.terminals, node < graph.size)
    (nodup : graph.terminals.Nodup) : graph.Discovered graph.terminals where
  nodup := nodup
  inside := inside
  terminals := List.prefix_rfl
  parent _ _ found other := absurd (List.mem_of_getElem? found) other

theorem append_children (discovered : graph.Discovered seen) (known : node ∈ seen) :
    graph.Discovered (seen ++ (graph.children node).filter fun child => child ∉ seen) where
  nodup := by
    apply List.nodup_append.mpr
    refine ⟨discovered.nodup, (nodup_children _ _).filter _, ?_⟩
    intro old isOld fresh isFresh same
    exact of_decide_eq_true (List.mem_filter.mp isFresh).2 (same ▸ isOld)
  inside := by
    intro other member
    cases List.mem_append.mp member with
    | inl old => exact discovered.inside other old
    | inr fresh => exact (mem_children.mp (List.mem_filter.mp fresh).1).lt_size
  terminals := discovered.terminals.trans (List.prefix_append _ _)
  parent := by
    intro position other found notTerminal
    by_cases old : position < seen.length
    · rw [List.getElem?_append_left old] at found
      rcases discovered.parent position other found notTerminal with
        ⟨earlier, before, parent, parentFound, edge⟩
      refine ⟨earlier, before, parent, ?_, edge⟩
      rwa [List.getElem?_append_left (Nat.lt_trans before old)]
    · -- A fresh child comes behind all nodes that were known, its parent included.
      rw [List.getElem?_append_right (Nat.le_of_not_lt old)] at found
      have fresh := List.mem_of_getElem? found
      rcases List.mem_iff_getElem?.mp known with ⟨earlier, parentFound⟩
      have before : earlier < seen.length := (List.getElem?_eq_some_iff.mp parentFound).1
      refine ⟨earlier, by omega, node, ?_, mem_children.mp (List.mem_filter.mp fresh).1⟩
      rwa [List.getElem?_append_left before]

theorem length_le (discovered : graph.Discovered seen) : seen.length ≤ graph.size := by
  have subset : seen ⊆ List.range graph.size := fun node member =>
    List.mem_range.mpr (discovered.inside node member)
  simpa using (List.subperm_of_subset discovered.nodup subset).length_le

end Discovered

/-- What holds during the walk: the nodes that are listed have all their children among those that
were seen. -/
structure Walked (graph : DependencyGraph α) (listed seen : List Nat) : Prop
    extends graph.Discovered seen where
  closed : ∀ node ∈ listed, ∀ child, graph.Edge node child → child ∈ seen

namespace Walked

variable {listed seen queue : List Nat} {node : Nat}

/-- The next node is listed, and those of its children that were not seen before are added. -/
theorem step (walked : graph.Walked listed seen) (known : node ∈ seen) :
    graph.Walked (listed ++ [node])
      (seen ++ (graph.children node).filter fun child => child ∉ seen) := by
  refine ⟨walked.append_children known, ?_⟩
  intro other member child edge
  cases List.mem_append.mp member with
  | inl old => exact List.mem_append_left _ (walked.closed other old child edge)
  | inr isNode =>
      rw [List.mem_singleton.mp isNode] at edge
      by_cases old : child ∈ seen
      · exact List.mem_append_left _ old
      · apply List.mem_append_right
        exact List.mem_filter.mpr ⟨mem_children.mpr edge, decide_eq_true old⟩

/-- Each node waits once, so no node waits any longer at the end of the walk. -/
theorem walk {fuel : Nat} (walked : graph.Walked listed (listed ++ queue))
    (enough : graph.size ≤ fuel + listed.length) :
    graph.Walked (listed ++ (walk graph.children fuel queue (listed ++ queue)).map Prod.fst)
      (listed ++ (walk graph.children fuel queue (listed ++ queue)).map Prod.fst) := by
  induction fuel generalizing listed queue with
  | zero =>
      have bound := walked.length_le
      rw [List.length_append] at bound
      have none : queue = [] := List.length_eq_zero_iff.mp (by omega)
      rw [none] at walked ⊢
      simpa [DependencyGraph.walk] using walked
  | succ fuel induction =>
      cases queue with
      | nil => simpa [DependencyGraph.walk] using walked
      | cons node queue =>
          have next := walked.step (List.mem_append_right _ List.mem_cons_self)
          have seen (fresh : List Nat) : listed ++ node :: queue ++ fresh =
              listed ++ [node] ++ (queue ++ fresh) := by simp
          rw [seen] at next
          have further := induction next (by simp; omega)
          simpa [DependencyGraph.walk] using further

/-- Nodes are reached in the order of their numbers. -/
theorem mem_of_lt_size (walked : graph.Walked listed listed) (ordered : graph.Ordered)
    (orphans : ∀ node < graph.size, (∀ parent, ¬graph.Edge parent node) → node ∈ graph.terminals)
    (inside : node < graph.size) : node ∈ listed := by
  induction node using Nat.strongRecOn with
  | ind node induction =>
      by_cases orphan : ∀ parent, ¬graph.Edge parent node
      · exact walked.terminals.subset (orphans node inside orphan)
      · rcases Classical.not_forall_not.mp orphan with ⟨parent, edge⟩
        have lower := ordered parent node edge
        exact walked.closed parent (induction parent lower (Nat.lt_trans lower inside)) node edge

end Walked

/-! ## Edges -/

/-- The pairs of a number with each of those that are listed for it. -/
def pairsOf (entries : List (Nat × List Nat)) : List (Nat × Nat) :=
  entries.flatMap fun entry => entry.2.map (Prod.mk entry.1)

theorem edges_eq_pairsOf (graph : DependencyGraph α) : graph.edges = pairsOf graph.adjacency := rfl

section Pairs

variable {entries : List (Nat × List Nat)}

theorem mem_pairsOf {first second : Nat} :
    (first, second) ∈ pairsOf entries ↔ ∃ entry ∈ entries, entry.1 = first ∧ second ∈ entry.2 := by
  simp only [pairsOf, List.mem_flatMap, List.mem_map, Prod.mk.injEq]
  refine exists_congr fun entry => and_congr_right fun _ => ?_
  constructor
  · intro paired
    rcases paired with ⟨_, member, same, rfl⟩
    exact ⟨same, member⟩
  · intro listed
    exact ⟨second, listed.2, listed.1, rfl⟩

theorem nodup_pairsOf (distinct : (entries.map Prod.fst).Nodup)
    (each : ∀ entry ∈ entries, entry.2.Nodup) : (pairsOf entries).Nodup := by
  rw [List.Nodup, List.pairwise_map] at distinct
  refine List.nodup_flatMap.mpr ⟨fun entry member => ?_, distinct.imp fun different => ?_⟩
  · exact (each entry member).map (Prod.mk_right_injective entry.1)
  · intro pair isFirst isSecond
    rcases List.mem_map.mp isFirst with ⟨_, _, rfl⟩
    rcases List.mem_map.mp isSecond with ⟨_, _, same⟩
    exact different (Prod.mk.inj same).1.symm

end Pairs

/-- All nodes with their parents, as they are stored. -/
def entries (graph : DependencyGraph α) : List (Nat × List Nat) :=
  graph.nodes.zipIdx.map fun entry => (entry.2, entry.1.parents)

theorem mem_pairsOf_entries {parent child : Nat} :
    (child, parent) ∈ pairsOf graph.entries ↔ graph.Edge parent child := by
  simp only [mem_pairsOf, entries, List.mem_map, edge_iff_exists]
  constructor
  · intro listed
    rcases listed with ⟨_, ⟨entry, stored, rfl⟩, rfl, isParent⟩
    exact ⟨entry.1, List.mem_zipIdx_iff_getElem?.mp stored, isParent⟩
  · intro edge
    rcases edge with ⟨node, found, isParent⟩
    exact ⟨_, ⟨(node, child), List.mem_zipIdx_iff_getElem?.mpr found, rfl⟩, rfl, isParent⟩

theorem nodup_pairsOf_entries (distinct : ∀ node ∈ graph.nodes, node.parents.Nodup) :
    (pairsOf graph.entries).Nodup := by
  apply nodup_pairsOf
  · rw [entries, List.map_map]
    change (graph.nodes.zipIdx.map Prod.snd).Nodup
    rw [List.zipIdx_map_snd]
    exact List.nodup_range'
  · intro entry member
    rcases List.mem_map.mp member with ⟨stored, isStored, rfl⟩
    exact distinct stored.1 (List.fst_mem_of_mem_zipIdx isStored)

theorem length_pairsOf_entries (graph : DependencyGraph α) :
    (pairsOf graph.entries).length = graph.edgeCount := by
  have parents : (pairsOf graph.entries).map Prod.snd =
      (graph.nodes.zipIdx.map Prod.fst).flatMap DependencyNode.parents := by
    rw [pairsOf, entries, List.map_flatMap, List.flatMap_map, List.flatMap_map]
    simp only [List.map_map]
    exact congrArg (graph.nodes.zipIdx.flatMap ·) (funext fun entry => List.map_id _)
  rw [edgeCount, ← List.zipIdx_map_fst 0 graph.nodes, ← parents, List.length_map]

/-! ## Completeness -/

/-- The listings of the graph of a sequence leave nothing out and repeat nothing. -/
structure ListsAll (graph : DependencyGraph α) (operations : List α) : Prop where
  size : graph.size = operations.length
  nodes : (graph.adjacency.map Prod.fst).Perm (List.range graph.size)
  terminals : graph.terminals <+: graph.adjacency.map Prod.fst
  sorted : ∀ entry ∈ graph.adjacency, entry.2.Pairwise (· < ·)
  children : ∀ entry ∈ graph.adjacency, ∀ child, child ∈ entry.2 ↔ graph.Edge entry.1 child
  /-- A node that is no terminal is listed after one of its parents. -/
  parent : ∀ (position node : Nat), (graph.adjacency.map Prod.fst)[position]? = some node →
    node ∉ graph.terminals → ∃ earlier < position, ∃ parent,
      (graph.adjacency.map Prod.fst)[earlier]? = some parent ∧ graph.Edge parent node
  nodup_edges : graph.edges.Nodup
  mem_edges : ∀ parent child, (parent, child) ∈ graph.edges ↔ graph.Edge parent child
  length_edges : graph.edges.length = graph.edgeCount

section Built

variable {depends : α → α → Bool} {draft : DependencyDraft α}

theorem walked_adjacency (built : draft.Built depends) :
    draft.graph.Walked (draft.graph.adjacency.map Prod.fst)
      (draft.graph.adjacency.map Prod.fst) := by
  have discovered : draft.graph.Discovered draft.graph.terminals :=
    .start (fun node member => ((built.terminals node).mp member).1) built.terminals_nodup
  have start : draft.graph.Walked [] draft.graph.terminals :=
    ⟨discovered, fun _ listed => absurd listed List.not_mem_nil⟩
  exact start.walk (Nat.le_refl _)

theorem mem_adjacency_map_fst (built : draft.Built depends) {node : Nat} :
    node ∈ draft.graph.adjacency.map Prod.fst ↔ node < draft.graph.size := by
  have walked := walked_adjacency built
  constructor
  · intro listed
    exact walked.inside node listed
  · intro inside
    exact walked.mem_of_lt_size built.ordered
      (fun other otherInside orphan => (built.terminals other).mpr ⟨otherInside, orphan⟩) inside

theorem nodup_edges (built : draft.Built depends) : draft.graph.edges.Nodup := by
  rw [edges_eq_pairsOf]
  apply nodup_pairsOf (walked_adjacency built).nodup
  intro entry listed
  rw [eq_children_of_mem_walk listed]
  exact nodup_children _ _

theorem mem_edges (built : draft.Built depends) {parent child : Nat} :
    (parent, child) ∈ draft.graph.edges ↔ draft.graph.Edge parent child := by
  refine ⟨edge_of_mem_edges, fun edge => ?_⟩
  have inside := Nat.lt_trans (built.ordered parent child edge) edge.lt_size
  rcases List.mem_map.mp ((mem_adjacency_map_fst built).mpr inside) with ⟨entry, listed, rfl⟩
  rw [edges_eq_pairsOf, mem_pairsOf]
  refine ⟨entry, listed, rfl, ?_⟩
  rw [eq_children_of_mem_walk listed]
  exact mem_children.mpr edge

/-- The same edges are listed by their parents and stored by their children. -/
theorem length_edges (built : draft.Built depends) :
    draft.graph.edges.length = draft.graph.edgeCount := by
  have same : (draft.graph.edges.map Prod.swap).Perm (pairsOf draft.graph.entries) := by
    refine (List.perm_ext_iff_of_nodup ((nodup_edges built).map Prod.swap_injective)
      (nodup_pairsOf_entries built.nodup)).mpr fun pair => ?_
    rw [mem_pairsOf_entries, ← mem_edges built, List.mem_map]
    constructor
    · intro swapped
      rcases swapped with ⟨edge, listed, rfl⟩
      exact listed
    · exact fun listed => ⟨_, listed, rfl⟩
  rw [← length_pairsOf_entries, ← same.length_eq, List.length_map]

end Built

theorem ofSequence_listsAll (depends : α → α → Bool) (operations : List α) :
    (ofSequence depends operations).ListsAll operations := by
  have built := DependencyDraft.built_ofSequence depends operations
  have walked := walked_adjacency built
  constructor
  case size => exact size_ofSequence depends operations
  case nodes =>
    refine (List.perm_ext_iff_of_nodup walked.nodup List.nodup_range).mpr fun node => ?_
    rw [List.mem_range]
    exact mem_adjacency_map_fst built
  case terminals => exact walked.terminals
  case sorted =>
    intro entry listed
    rw [eq_children_of_mem_walk listed]
    exact pairwise_children _ _
  case children =>
    intro entry listed child
    rw [eq_children_of_mem_walk listed]
    exact mem_children
  case parent => exact walked.parent
  case nodup_edges => exact nodup_edges built
  case mem_edges => exact fun parent child => mem_edges built
  case length_edges => exact length_edges built

end LatticeSurgery.DependencyGraph
