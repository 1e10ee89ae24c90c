import LatticeSurgery.Dependency
import Mathlib.Logic.Relation

namespace LatticeSurgery.DependencyGraph

open Relation

/-! # Paths of a dependency graph

Edges lead from a node to nodes with larger numbers. One pass from the newest node to the
oldest therefore finds everything above a set of nodes. -/

variable {α : Type} {graph : DependencyGraph α}

/-- The operation of the parent depends on the one of the child. -/
def Edge (graph : DependencyGraph α) (parent child : Nat) : Prop := parent ∈ graph.parents child

theorem edge_iff_exists {parent child : Nat} :
    graph.Edge parent child ↔
      ∃ node, graph.nodes[child]? = some node ∧ parent ∈ node.parents := by
  rw [Edge, parents, List.mem_mergeSort, incoming]
  cases graph.nodes[child]? <;> simp

theorem mem_incoming {parent child : Nat} :
    parent ∈ graph.incoming child ↔ graph.Edge parent child := by
  rw [Edge, parents, List.mem_mergeSort]

theorem Edge.lt_size {parent child : Nat} (edge : graph.Edge parent child) :
    child < graph.size := by
  rcases edge_iff_exists.mp edge with ⟨_, found, _⟩
  exact (List.getElem?_eq_some_iff.mp found).1

/-- Parents have smaller numbers than their children. -/
def Ordered (graph : DependencyGraph α) : Prop :=
  ∀ parent child, graph.Edge parent child → parent < child

theorem Ordered.lt_of_path (ordered : graph.Ordered) {source target : Nat}
    (path : TransGen graph.Edge source target) : source < target := by
  induction path with
  | single edge => exact ordered _ _ edge
  | tail _ edge induction => exact Nat.lt_trans induction (ordered _ _ edge)

/-! ## Ancestors -/

private def ancestorStep (start : Std.HashSet Nat) (entry : DependencyNode α × Nat)
    (above : Std.HashSet Nat) : Std.HashSet Nat :=
  if start.contains entry.2 || above.contains entry.2 then above.insertMany entry.1.parents
  else above

private theorem mem_ancestorStep {start : Std.HashSet Nat} {entry : DependencyNode α × Nat}
    {above : Std.HashSet Nat} {parent : Nat} :
    parent ∈ ancestorStep start entry above ↔ parent ∈ above ∨
      (entry.2 ∈ start ∨ entry.2 ∈ above) ∧ parent ∈ entry.1.parents := by
  have goes : (start.contains entry.2 || above.contains entry.2) = true ↔
      entry.2 ∈ start ∨ entry.2 ∈ above := by
    simp [Std.HashSet.contains_iff_mem]
  rw [ancestorStep, ← goes]
  by_cases further : (start.contains entry.2 || above.contains entry.2) = true
  · rw [if_pos further, Std.HashSet.mem_insertMany_list]
    simp [further]
  · rw [if_neg further]
    simp [further]

private theorem mem_foldr_ancestorStep {start : Std.HashSet Nat}
    {nodes : List (DependencyNode α)} {first : Nat}
    (ordered : ∀ position node, nodes[position]? = some node →
      ∀ parent ∈ node.parents, parent < first + position) {parent : Nat} :
    parent ∈ (nodes.zipIdx first).foldr (ancestorStep start) ∅ ↔
      ∃ position node, nodes[position]? = some node ∧
        (first + position ∈ start ∨
          first + position ∈ (nodes.zipIdx first).foldr (ancestorStep start) ∅) ∧
        parent ∈ node.parents := by
  induction nodes generalizing first parent with
  | nil => simp
  | cons node rest induction =>
      have restOrdered : ∀ position node, rest[position]? = some node →
          ∀ parent ∈ node.parents, parent < first + 1 + position := by
        intro position other found parent member
        have := ordered (position + 1) other found parent member
        omega
      have earlier := @induction (first + 1) restOrdered
      rw [List.zipIdx_cons, List.foldr_cons]
      generalize (rest.zipIdx (first + 1)).foldr (ancestorStep start) ∅ = above at earlier ⊢
      -- What the last step adds lies below the first number.
      have same {child : Nat} (later : first ≤ child) :
          child ∈ ancestorStep start (node, first) above ↔ child ∈ above := by
        rw [mem_ancestorStep, or_iff_left]
        rintro ⟨_, member⟩
        have := ordered 0 node rfl child member
        omega
      rw [mem_ancestorStep, earlier]
      constructor
      · rintro (⟨position, other, found, reached, member⟩ | ⟨reached, member⟩)
        · refine ⟨position + 1, other, found, ?_, member⟩
          rw [same (by omega), show first + (position + 1) = first + 1 + position by omega]
          exact reached
        · refine ⟨0, node, rfl, ?_, member⟩
          rw [same (by omega)]
          exact reached
      · rintro ⟨position, other, found, reached, member⟩
        rw [same (by omega)] at reached
        cases position with
        | zero =>
            cases found
            exact .inr ⟨reached, member⟩
        | succ position =>
            rw [show first + (position + 1) = first + 1 + position by omega] at reached
            exact .inl ⟨position, other, found, reached, member⟩

/-- A node is above the start when it is a parent of the start, or of a node that is. -/
theorem mem_ancestors (ordered : graph.Ordered) {start : Std.HashSet Nat} {parent : Nat} :
    parent ∈ graph.ancestors start ↔ ∃ child, graph.Edge parent child ∧
      (child ∈ start ∨ child ∈ graph.ancestors start) := by
  have numbered : ∀ position node, graph.nodes[position]? = some node →
      ∀ parent ∈ node.parents, parent < 0 + position := by
    intro position node found parent member
    rw [Nat.zero_add]
    exact ordered parent position (edge_iff_exists.mpr ⟨node, found, member⟩)
  have unfolded : graph.ancestors start = graph.nodes.zipIdx.foldr (ancestorStep start) ∅ := rfl
  rw [unfolded, mem_foldr_ancestorStep numbered]
  simp only [Nat.zero_add, edge_iff_exists]
  constructor
  · rintro ⟨child, node, found, reached, isParent⟩
    exact ⟨child, ⟨node, found, isParent⟩, reached⟩
  · rintro ⟨child, ⟨node, found, isParent⟩, reached⟩
    exact ⟨child, node, found, reached, isParent⟩

theorem mem_ancestors_iff_path (ordered : graph.Ordered) {start : Std.HashSet Nat}
    {source : Nat} :
    source ∈ graph.ancestors start ↔ ∃ target ∈ start, TransGen graph.Edge source target := by
  constructor
  · intro member
    -- The numbers grow on the way down and stay below the size of the graph.
    generalize distance : graph.size - source = bound
    induction bound using Nat.strongRecOn generalizing source with
    | ind bound induction =>
        rcases (mem_ancestors ordered).mp member with ⟨child, edge, reached | reached⟩
        · exact ⟨child, reached, .single edge⟩
        · have lower := ordered source child edge
          have inside := edge.lt_size
          rcases induction (graph.size - child) (by omega) reached rfl with
            ⟨target, isStart, path⟩
          exact ⟨target, isStart, .head edge path⟩
  · rintro ⟨target, isStart, path⟩
    induction path using TransGen.head_induction_on with
    | single edge => exact (mem_ancestors ordered).mpr ⟨target, edge, .inl isStart⟩
    | head edge _ reached => exact (mem_ancestors ordered).mpr ⟨_, edge, .inr reached⟩

theorem hasPath_iff (ordered : graph.Ordered) {source target : Nat} :
    graph.hasPath source target = true ↔
      target < graph.size ∧ ReflTransGen graph.Edge source target := by
  have above : source ∈ graph.ancestors {target} ↔ TransGen graph.Edge source target := by
    rw [mem_ancestors_iff_path ordered]
    simp
  rw [hasPath, Bool.and_eq_true, Bool.or_eq_true, decide_eq_true_eq, decide_eq_true_eq,
    Std.HashSet.contains_iff_mem, above, reflTransGen_iff_eq_or_transGen, eq_comm (a := source)]

end LatticeSurgery.DependencyGraph
