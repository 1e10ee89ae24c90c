import LatticeSurgery.Proofs.Dependency.Reduction

namespace LatticeSurgery.DependencyGraph

/-! # Dependencies of blocks

The pairs that are reported for a circuit are positions of blocks that do not commute, the
later one first. -/

variable {α β : Type}

/-- A walk lists nodes with their own children. -/
theorem eq_children_of_mem_walk {children : Nat → List Nat} {fuel node : Nat}
    {queue seen next : List Nat} (listed : (node, next) ∈ walk children fuel queue seen) :
    next = children node := by
  induction fuel generalizing queue seen with
  | zero => cases listed
  | succ fuel induction =>
      cases queue with
      | nil => cases listed
      | cons first rest =>
          rcases List.mem_cons.mp listed with same | listed
          · cases same
            rfl
          · exact induction listed

theorem mem_children {graph : DependencyGraph α} {parent child : Nat} :
    child ∈ graph.children parent ↔ graph.Edge parent child := by
  simp only [children, edge_iff_exists, List.mem_filterMap, Prod.exists,
    List.mem_zipIdx_iff_getElem?, Option.ite_none_right_eq_some, Option.some.injEq]
  constructor
  · intro listed
    rcases listed with ⟨node, index, found, isParent, rfl⟩
    exact ⟨node, found, isParent⟩
  · intro edge
    rcases edge with ⟨node, found, isParent⟩
    exact ⟨node, child, found, isParent, rfl⟩

theorem edge_of_mem_edges {graph : DependencyGraph α} {parent child : Nat}
    (listed : (parent, child) ∈ graph.edges) : graph.Edge parent child := by
  rcases List.mem_flatMap.mp listed with ⟨⟨node, next⟩, isListed, member⟩
  rcases List.mem_map.mp member with ⟨_, isChild, same⟩
  cases same
  rw [eq_children_of_mem_walk isListed] at isChild
  exact mem_children.mp isChild

theorem edge_relabel {graph : DependencyGraph α} {label : α → β} {parent child : Nat} :
    (graph.relabel label).Edge parent child ↔ graph.Edge parent child := by
  rw [← mem_incoming, ← mem_incoming, incoming, incoming, relabel, List.getElem?_map]
  cases graph.nodes[child]? <;> rfl

theorem operation?_relabel {graph : DependencyGraph α} {label : α → β} {node : Nat} :
    (graph.relabel label).operation? node = (graph.operation? node).map label := by
  rw [operation?, operation?, relabel, List.getElem?_map, Option.map_map, Option.map_map]
  rfl

theorem validate_ofCircuit (circuit : Circuit) : (ofCircuit circuit).validate = .ok () := by
  apply validate_eq_ok
  intro parent child edge
  exact (DependencyDraft.built_ofSequence _ _).ordered parent child (edge_relabel.mp edge)

/-- The operation of a node of a circuit is the position of its block. -/
theorem operation?_ofCircuit {circuit : Circuit} {position : Nat}
    (inside : position < circuit.size) :
    (ofCircuit circuit).operation? (nodeOf circuit.blocks.zipIdx position) = some position := by
  have indexed : position < circuit.blocks.zipIdx.length := by rwa [List.length_zipIdx]
  rw [ofCircuit, operation?_relabel, operation?_nodeOf indexed, List.getElem?_zipIdx,
    List.getElem?_eq_getElem inside, Option.map_some, Option.map_some, Nat.zero_add]

/-- Reported pairs are positions of blocks that do not commute. -/
theorem commuting_of_mem_operationEdges {circuit : Circuit} {pair : Nat × Nat}
    (reported : pair ∈ (ofCircuit circuit).operationEdges) :
    pair.2 < pair.1 ∧ pair.1 < circuit.size ∧ circuit.commuting pair.2 pair.1 = .ok false := by
  rcases List.mem_filterMap.mp reported with ⟨⟨parent, child⟩, listed, labelled⟩
  have edge := edge_relabel.mp (edge_of_mem_edges listed)
  have built := DependencyDraft.built_ofSequence
    (fun earlier later : Block × Nat => !earlier.1.productsCommute later.1) circuit.blocks.zipIdx
  rcases exists_dependsOn_of_conflict (built.conflict_of_edge edge) with
    ⟨later, earlier, dependent, rfl, rfl⟩
  have inside := dependent.lt_length
  rw [List.length_zipIdx] at inside
  rcases dependent with ⟨order, first, second, foundFirst, foundSecond, clashing⟩
  simp only [operation?_ofCircuit inside, operation?_ofCircuit (Nat.lt_trans order inside),
    Option.bind_eq_bind, Option.bind_some, Option.pure_def, Option.some.injEq] at labelled
  subst labelled
  refine ⟨order, inside, ?_⟩
  rw [List.getElem?_zipIdx, Option.map_eq_some_iff] at foundFirst foundSecond
  rcases foundFirst with ⟨firstBlock, foundFirst, rfl⟩
  rcases foundSecond with ⟨secondBlock, foundSecond, rfl⟩
  rw [Bool.not_eq_true'] at clashing
  rw [Circuit.commuting, Circuit.blockAt, Circuit.blockAt, foundFirst, foundSecond, ← clashing]
  rfl

end LatticeSurgery.DependencyGraph
