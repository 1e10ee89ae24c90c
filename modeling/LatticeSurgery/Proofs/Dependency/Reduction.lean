import LatticeSurgery.Proofs.Dependency.Construction

namespace LatticeSurgery

open Relation

/-! # Transitive reduction

The graph of a sequence has the paths that the dependencies of the sequence generate, and no
edge that follows from others. -/

namespace DependencyDraft.Built

open DependencyGraph

variable {α : Type} {depends : α → α → Bool} {draft : DependencyDraft α}

theorem conflict_of_edge (built : draft.Built depends) {parent child : Nat}
    (edge : draft.graph.Edge parent child) : draft.graph.Conflict depends parent child :=
  ((built.nearest parent child).mp edge).1

/-- A conflict is an edge, or it goes through a nearer one. -/
theorem path_of_conflict (built : draft.Built depends) {parent child : Nat}
    (conflict : draft.graph.Conflict depends parent child) :
    TransGen draft.graph.Edge parent child := by
  generalize distance : child - parent = bound
  induction bound using Nat.strongRecOn generalizing parent with
  | ind bound induction =>
      by_cases edge : draft.graph.Edge parent child
      · exact .single edge
      · rw [built.nearest, not_and] at edge
        rcases Classical.not_forall.mp (edge conflict) with ⟨other, further⟩
        rw [Classical.not_imp, Classical.not_not] at further
        have nearer := built.ordered.lt_of_path further.2
        have lower := further.1.1
        exact further.2.trans (induction (child - other) (by omega) further.1 rfl)

theorem path_iff (built : draft.Built depends) {source target : Nat} :
    TransGen draft.graph.Edge source target ↔
      TransGen (draft.graph.Conflict depends) source target := by
  constructor
  · exact fun path => path.lift id fun _ _ => built.conflict_of_edge
  · intro path
    induction path with
    | single conflict => exact built.path_of_conflict conflict
    | tail _ conflict induction => exact induction.trans (built.path_of_conflict conflict)

/-- No edge follows from a longer path. -/
theorem not_exists_between (built : draft.Built depends) {parent child : Nat}
    (edge : draft.graph.Edge parent child) :
    ¬∃ between, draft.graph.Edge parent between ∧ TransGen draft.graph.Edge between child := by
  rintro ⟨between, first, path⟩
  rcases TransGen.tail'_iff.mp path with ⟨last, middle, lastEdge⟩
  exact ((built.nearest parent child).mp edge).2 last (built.conflict_of_edge lastEdge)
    (.head' first middle)

end DependencyDraft.Built

namespace DependencyGraph

variable {α : Type} {graph : DependencyGraph α}

/-! ## Acyclic graphs -/

/-- Each round removes at least the smallest node. -/
theorem le_of_mem_peel (ordered : graph.Ordered) {least : Nat} {remaining : List Nat}
    (bounded : ∀ node ∈ remaining, least ≤ node) :
    ∀ node ∈ graph.peel remaining, least + 1 ≤ node := by
  intro node member
  rw [peel, List.mem_filter, List.any_eq_true] at member
  rcases member.2 with ⟨parent, isParent, remains⟩
  have low := bounded parent (of_decide_eq_true remains)
  have lower := ordered parent node (mem_incoming.mp isParent)
  omega

theorem validate_eq_ok (ordered : graph.Ordered) : graph.validate = .ok () := by
  have rounds (count : Nat) :
      (∀ node ∈ Nat.repeat graph.peel count (List.range graph.size), count ≤ node) ∧
        ∀ node ∈ Nat.repeat graph.peel count (List.range graph.size), node < graph.size := by
    induction count with
    | zero => exact ⟨fun _ _ => Nat.zero_le _, fun _ => List.mem_range.mp⟩
    | succ count induction =>
        exact ⟨le_of_mem_peel ordered induction.1, fun node member =>
          induction.2 node ((List.mem_filter.mp member).1)⟩
  have none : Nat.repeat graph.peel graph.size (List.range graph.size) = [] := by
    refine List.eq_nil_iff_forall_not_mem.mpr fun node member => ?_
    have low := (rounds graph.size).1 node member
    have high := (rounds graph.size).2 node member
    omega
  rw [validate, isAcyclic, none]
  rfl

theorem nodup_parents (distinct : ∀ node ∈ graph.nodes, node.parents.Nodup) (child : Nat) :
    (graph.parents child).Nodup := by
  rw [parents, (List.mergeSort_perm _ _).nodup_iff, incoming]
  cases found : graph.nodes[child]? with
  | none => exact List.nodup_nil
  | some node => exact distinct node (List.mem_of_getElem? found)

/-! ## Positions

The node of an operation is counted from the end of the sequence. -/

theorem map_operation_ofSequence (depends : α → α → Bool) (operations : List α) :
    (ofSequence depends operations).nodes.map DependencyNode.operation = operations.reverse := by
  induction operations with
  | nil => rfl
  | cons operation later induction =>
      rw [List.reverse_cons, ← induction]
      exact List.map_append

theorem size_ofSequence (depends : α → α → Bool) (operations : List α) :
    (ofSequence depends operations).size = operations.length := by
  have lengths := congrArg List.length (map_operation_ofSequence depends operations)
  rwa [List.length_map, List.length_reverse] at lengths

theorem operation?_ofSequence (depends : α → α → Bool) (operations : List α) (node : Nat) :
    (ofSequence depends operations).operation? node = operations.reverse[node]? := by
  rw [operation?, ← map_operation_ofSequence depends operations, List.getElem?_map]

/-- The node of the operation at a position of a sequence. -/
def nodeOf (operations : List α) (position : Nat) : Nat := operations.length - 1 - position

/-- The operation at one position has to stay behind the one at another position. -/
def DependsOn (depends : α → α → Bool) (operations : List α) (later earlier : Nat) : Prop :=
  earlier < later ∧ ∃ first second, operations[earlier]? = some first ∧
    operations[later]? = some second ∧ depends first second = true

variable {depends : α → α → Bool} {operations : List α}

theorem DependsOn.lt_length {later earlier : Nat}
    (dependent : DependsOn depends operations later earlier) : later < operations.length := by
  rcases dependent with ⟨_, _, _, _, found, _⟩
  exact (List.getElem?_eq_some_iff.mp found).1

theorem nodeOf_nodeOf {position : Nat} (inside : position < operations.length) :
    nodeOf operations (nodeOf operations position) = position := by
  rw [nodeOf, nodeOf]
  omega

theorem nodeOf_lt {position : Nat} (inside : position < operations.length) :
    nodeOf operations position < operations.length := by
  rw [nodeOf]
  omega

theorem operation?_nodeOf {position : Nat} (inside : position < operations.length) :
    (ofSequence depends operations).operation? (nodeOf operations position) =
      operations[position]? := by
  rw [operation?_ofSequence, List.getElem?_reverse (nodeOf_lt inside)]
  exact congrArg (operations[·]?) (nodeOf_nodeOf inside)

theorem dependent_iff {chosen : α → Bool} {index : Nat} :
    graph.Dependent chosen index ↔
      ∃ operation, graph.operation? index = some operation ∧ chosen operation = true := by
  rw [Dependent, operation?]
  cases graph.nodes[index]? <;> simp

/-- Conflicts of nodes are dependencies of positions. -/
theorem conflict_nodeOf {later earlier : Nat} (laterInside : later < operations.length)
    (earlierInside : earlier < operations.length) :
    (ofSequence depends operations).Conflict depends (nodeOf operations later)
      (nodeOf operations earlier) ↔ DependsOn depends operations later earlier := by
  have order : nodeOf operations later < nodeOf operations earlier ↔ earlier < later := by
    rw [nodeOf, nodeOf]
    omega
  simp only [Conflict, DependsOn, dependent_iff, operation?_nodeOf laterInside,
    operation?_nodeOf earlierInside, order]
  refine and_congr_right fun _ => ?_
  simp only [exists_and_left]

/-- Every conflict of two nodes comes from two positions. -/
theorem exists_dependsOn_of_conflict {parent child : Nat}
    (conflict : (ofSequence depends operations).Conflict depends parent child) :
    ∃ later earlier, DependsOn depends operations later earlier ∧
      nodeOf operations later = parent ∧ nodeOf operations earlier = child := by
  have inside : child < operations.length :=
    size_ofSequence depends operations ▸ conflict.lt_size
  have parentInside := Nat.lt_trans conflict.1 inside
  refine ⟨nodeOf operations parent, nodeOf operations child, ?_, nodeOf_nodeOf parentInside,
    nodeOf_nodeOf inside⟩
  rw [← conflict_nodeOf (nodeOf_lt parentInside) (nodeOf_lt inside),
    nodeOf_nodeOf parentInside, nodeOf_nodeOf inside]
  exact conflict

theorem path_nodeOf {later earlier : Nat} (laterInside : later < operations.length)
    (earlierInside : earlier < operations.length) :
    TransGen (ofSequence depends operations).Edge (nodeOf operations later)
      (nodeOf operations earlier) ↔ TransGen (DependsOn depends operations) later earlier := by
  have built := DependencyDraft.built_ofSequence depends operations
  rw [ofSequence, built.path_iff]
  constructor
  · intro path
    have lifted : TransGen (DependsOn depends operations)
        (nodeOf operations (nodeOf operations later))
        (nodeOf operations (nodeOf operations earlier)) := by
      refine path.lift (nodeOf operations) fun parent child conflict => ?_
      rcases exists_dependsOn_of_conflict conflict with ⟨one, other, dependent, rfl, rfl⟩
      have oneInside := dependent.lt_length
      have otherInside := Nat.lt_trans dependent.1 oneInside
      change DependsOn depends operations _ _
      rwa [nodeOf_nodeOf oneInside, nodeOf_nodeOf otherInside]
    rwa [nodeOf_nodeOf laterInside, nodeOf_nodeOf earlierInside] at lifted
  · intro path
    refine path.lift (nodeOf operations) fun one other dependent => ?_
    have oneInside := dependent.lt_length
    exact (conflict_nodeOf oneInside (Nat.lt_trans dependent.1 oneInside)).mpr dependent

/-- A graph that orders the operations of a sequence as their dependencies do, without an edge
that the others imply. -/
structure IsTransitiveReduction (graph : DependencyGraph α) (depends : α → α → Bool)
    (operations : List α) : Prop where
  size : graph.size = operations.length
  operation : ∀ position < operations.length,
    graph.operation? (nodeOf operations position) = operations[position]?
  /-- The paths are the chains of dependencies. -/
  path : ∀ later < operations.length, ∀ earlier < operations.length,
    (TransGen graph.Edge (nodeOf operations later) (nodeOf operations earlier) ↔
      TransGen (DependsOn depends operations) later earlier)
  hasPath : ∀ later < operations.length, ∀ earlier < operations.length,
    (graph.hasPath (nodeOf operations later) (nodeOf operations earlier) = true ↔
      later = earlier ∨ TransGen (DependsOn depends operations) later earlier)
  /-- Each edge is a dependency itself. -/
  dependsOn : ∀ parent child, graph.Edge parent child → ∃ later earlier,
    DependsOn depends operations later earlier ∧
      nodeOf operations later = parent ∧ nodeOf operations earlier = child
  /-- No edge is the short way of a longer path. -/
  reduced : ∀ parent child, graph.Edge parent child →
    ¬∃ between, graph.Edge parent between ∧ TransGen graph.Edge between child
  nodup_parents : ∀ child, (graph.parents child).Nodup
  acyclic : graph.validate = .ok ()
  nodup_terminals : graph.terminals.Nodup
  mem_terminals : ∀ node,
    node ∈ graph.terminals ↔ node < graph.size ∧ ∀ parent, ¬graph.Edge parent node

theorem hasPath_nodeOf {later earlier : Nat} (laterInside : later < operations.length)
    (earlierInside : earlier < operations.length) :
    (ofSequence depends operations).hasPath (nodeOf operations later)
      (nodeOf operations earlier) = true ↔
        later = earlier ∨ TransGen (DependsOn depends operations) later earlier := by
  have same : nodeOf operations earlier = nodeOf operations later ↔ later = earlier := by
    rw [nodeOf, nodeOf]
    omega
  have ordered : (ofSequence depends operations).Ordered :=
    (DependencyDraft.built_ofSequence depends operations).ordered
  rw [hasPath_iff ordered, reflTransGen_iff_eq_or_transGen, same,
    path_nodeOf laterInside earlierInside, and_iff_right]
  exact size_ofSequence depends operations ▸ nodeOf_lt earlierInside

theorem ofSequence_isTransitiveReduction (depends : α → α → Bool) (operations : List α) :
    (ofSequence depends operations).IsTransitiveReduction depends operations := by
  have built := DependencyDraft.built_ofSequence depends operations
  constructor
  case size => exact size_ofSequence depends operations
  case operation => exact fun position inside => operation?_nodeOf inside
  case path => exact fun later laterInside earlier => path_nodeOf laterInside
  case hasPath => exact fun later laterInside earlier => hasPath_nodeOf laterInside
  case dependsOn =>
    exact fun parent child edge => exists_dependsOn_of_conflict (built.conflict_of_edge edge)
  case reduced => exact fun parent child edge => built.not_exists_between edge
  case nodup_parents => exact nodup_parents built.nodup
  case acyclic => exact validate_eq_ok built.ordered
  case nodup_terminals => exact built.terminals_nodup
  case mem_terminals => exact built.terminals

/-- Of two operations that are independent of each other, between two that enclose them, the
enclosing ones are joined by a path and not by an edge. -/
theorem ofSequence_isTransitiveReduction_diamond :
    let depends (first second : Nat) : Bool :=
      (first, second) ∈ [(0, 1), (0, 2), (0, 3), (1, 3), (2, 3)]
    let graph := ofSequence depends (List.range 4)
    graph.hasPath 0 3 = true ∧ ¬graph.Edge 0 3 ∧ graph.validate = .ok () := by
  intro depends graph
  have reduction := ofSequence_isTransitiveReduction depends (List.range 4)
  refine ⟨?_, fun edge => ?_, reduction.acyclic⟩
  · exact (reduction.hasPath 3 (by decide) 0 (by decide)).mpr
      (.inr (.single ⟨by decide, 0, 3, rfl, rfl, rfl⟩))
  · have upper := (reduction.path 3 (by decide) 1 (by decide)).mpr
      (.single ⟨by decide, 1, 3, rfl, rfl, rfl⟩)
    have lower := (reduction.path 1 (by decide) 0 (by decide)).mpr
      (.single ⟨by decide, 0, 1, rfl, rfl, rfl⟩)
    rcases TransGen.head'_iff.mp upper with ⟨between, first, rest⟩
    exact reduction.reduced 0 3 edge ⟨between, first, .trans_right rest lower⟩

end DependencyGraph

end LatticeSurgery
