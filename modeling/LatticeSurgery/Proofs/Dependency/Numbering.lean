import LatticeSurgery.Proofs.Dependency.Listing
import Mathlib.Combinatorics.SimpleGraph.Extremal.Turan

namespace LatticeSurgery.DependencyGraph

open Relation

/-! # Numbers for a dependency graph

The nodes and the edges of a graph are numbered. In the graph of a sequence no three nodes are
joined with each other, so there are at most a quarter as many edges as there are pairs of
nodes. This is exact for a sequence of two halves where everything in the second depends on
everything in the first. -/

variable {α : Type} {graph : DependencyGraph α}

/-- There are numbers for all nodes and edges. -/
structure Numbered (graph : DependencyGraph α) : Prop where
  nodes : graph.size ≤ Storage.indices
  edges : graph.edgeCount ≤ Storage.indices

theorem numbered_of_numbered (numbered : graph.Numbered) : graph.numbered = .ok graph := by
  rw [DependencyGraph.numbered, Storage.number_eq_ok.mpr numbered.nodes,
    Storage.number_eq_ok.mpr numbered.edges]
  rfl

theorem numbered_of_not_numbered (crowded : ¬ graph.Numbered) :
    graph.numbered = .error .indexing := by
  rw [DependencyGraph.numbered]
  by_cases few : graph.size ≤ Storage.indices
  · have many : ¬ graph.edgeCount ≤ Storage.indices := fun fewEdges => crowded ⟨few, fewEdges⟩
    rw [Storage.number_eq_ok.mpr few, Storage.number_eq_error many]
    rfl
  · rw [Storage.number_eq_error few]
    rfl

/-! ## Counting edges -/

/-- The edges as pairs of a child and a parent. -/
def edgePairs (graph : DependencyGraph α) : Finset (Nat × Nat) :=
  (pairsOf graph.entries).toFinset

theorem mem_edgePairs {pair : Nat × Nat} :
    pair ∈ graph.edgePairs ↔ graph.Edge pair.2 pair.1 := by
  rw [edgePairs, List.mem_toFinset]
  exact mem_pairsOf_entries

theorem card_edgePairs (distinct : ∀ node ∈ graph.nodes, node.parents.Nodup) :
    graph.edgePairs.card = graph.edgeCount := by
  rw [edgePairs, List.toFinset_card_of_nodup (nodup_pairsOf_entries distinct),
    length_pairsOf_entries]

/-- The nodes with their edges in both directions. -/
def joined (graph : DependencyGraph α) : SimpleGraph (Fin graph.size) :=
  .fromRel fun parent child => graph.Edge parent child

theorem edge_of_joined (ordered : graph.Ordered) {first second : Fin graph.size}
    (order : first < second) (adjacent : graph.joined.Adj first second) :
    graph.Edge first second := by
  rcases adjacent with ⟨_, edge | edge⟩
  · exact edge
  · exact absurd (ordered _ _ edge) (Nat.lt_asymm order)

/-- An edge is never the short way of a longer path, so there are no triangles. -/
theorem cliqueFree_joined (ordered : graph.Ordered)
    (reduced : ∀ parent child, graph.Edge parent child →
      ¬∃ between, graph.Edge parent between ∧ TransGen graph.Edge between child) :
    graph.joined.CliqueFree 3 := by
  classical
  have open_of_lt {first second third : Fin graph.size} (lower : first < second)
      (upper : second < third) (left : graph.joined.Adj first second)
      (right : graph.joined.Adj second third) : ¬ graph.joined.Adj first third := fun long =>
    reduced first third (edge_of_joined ordered (lower.trans upper) long) ⟨second,
      edge_of_joined ordered lower left, .single (edge_of_joined ordered upper right)⟩
  intro nodes clique
  rcases SimpleGraph.is3Clique_iff.mp clique with ⟨one, two, three, first, second, third, _⟩
  rcases lt_or_gt_of_ne first.ne with oneTwo | twoOne <;>
    rcases lt_or_gt_of_ne second.ne with oneThree | threeOne <;>
    rcases lt_or_gt_of_ne third.ne with twoThree | threeTwo
  · exact open_of_lt oneTwo twoThree first third second
  · exact open_of_lt oneThree threeTwo second third.symm first
  · exact absurd (oneTwo.trans twoThree) (not_lt_of_gt threeOne)
  · exact open_of_lt threeOne oneTwo second.symm first third.symm
  · exact open_of_lt twoOne oneThree first.symm second third
  · exact absurd (twoOne.trans oneThree) (not_lt_of_gt threeTwo)
  · exact open_of_lt twoThree threeOne third second.symm first.symm
  · exact open_of_lt threeTwo twoOne third.symm first.symm second.symm

theorem card_edgePairs_le (ordered : graph.Ordered) [DecidableRel graph.joined.Adj] :
    graph.edgePairs.card ≤ graph.joined.edgeFinset.card := by
  have injective : Set.InjOn (fun pair : Nat × Nat => s(pair.1, pair.2)) graph.edgePairs := by
    intro first firstMember second secondMember same
    have firstOrder := ordered _ _ (mem_edgePairs.mp firstMember)
    have secondOrder := ordered _ _ (mem_edgePairs.mp secondMember)
    rcases Sym2.eq_iff.mp same with ⟨children, parents⟩ | ⟨crossed, alsoCrossed⟩
    · exact Prod.ext children parents
    · omega
  have subset : graph.edgePairs.image (fun pair : Nat × Nat => s(pair.1, pair.2)) ⊆
      graph.joined.edgeFinset.image (Sym2.map Fin.val) := by
    intro joined member
    rcases Finset.mem_image.mp member with ⟨⟨child, parent⟩, isPair, rfl⟩
    have edge := mem_edgePairs.mp isPair
    have order := ordered parent child edge
    have inside := edge.lt_size
    refine Finset.mem_image.mpr ⟨s(⟨child, inside⟩, ⟨parent, order.trans inside⟩), ?_, rfl⟩
    rw [SimpleGraph.mem_edgeFinset, SimpleGraph.mem_edgeSet]
    exact ⟨fun same => Nat.ne_of_gt order (Fin.mk.inj same), .inr edge⟩
  calc graph.edgePairs.card
      = (graph.edgePairs.image fun pair : Nat × Nat => s(pair.1, pair.2)).card :=
        (Finset.card_image_of_injOn injective).symm
    _ ≤ (graph.joined.edgeFinset.image (Sym2.map Fin.val)).card := Finset.card_le_card subset
    _ ≤ graph.joined.edgeFinset.card := Finset.card_image_le

/-- Among graphs without triangles those with two equal parts have the most edges. -/
theorem four_mul_edgeCount_le (depends : α → α → Bool) (operations : List α) :
    4 * (ofSequence depends operations).edgeCount ≤ operations.length ^ 2 := by
  classical
  have built := DependencyDraft.built_ofSequence depends operations
  have free : (ofSequence depends operations).joined.CliqueFree 3 :=
    cliqueFree_joined built.ordered fun parent child edge => built.not_exists_between edge
  have counted : (ofSequence depends operations).edgeCount ≤
      (ofSequence depends operations).joined.edgeFinset.card :=
    card_edgePairs built.nodup ▸ card_edgePairs_le built.ordered
  have bound := free.card_edgeFinset_le
  rw [← size_ofSequence depends operations]
  simp only [Fintype.card_fin] at bound
  have parity : ((ofSequence depends operations).size % 2).choose 2 = 0 :=
    Nat.choose_eq_zero_of_lt (Nat.mod_lt _ Nat.two_pos)
  omega

theorem numbered_ofSequence (depends : α → α → Bool) {operations : List α}
    (short : operations.length < 131072) : (ofSequence depends operations).Numbered := by
  have square : operations.length ^ 2 ≤ 131071 ^ 2 := Nat.pow_le_pow_left (by omega) 2
  have edges := four_mul_edgeCount_le depends operations
  constructor
  · rw [size_ofSequence, Storage.indices]
    omega
  · rw [Storage.indices]
    omega

/-! ## Two halves -/

/-- Everything behind a position depends on everything before it, and nothing else does. -/
def DependsAcross (depends : α → α → Bool) (operations : List α) (middle : Nat) : Prop :=
  ∀ later earlier, DependsOn depends operations later earlier ↔
    earlier < middle ∧ middle ≤ later ∧ later < operations.length

section Halves

variable {depends : α → α → Bool} {operations : List α} {middle : Nat}

/-- Nothing lies between the halves, so all dependencies are edges. -/
theorem edge_of_dependsAcross (across : DependsAcross depends operations middle)
    {later earlier : Nat} (before : earlier < middle) (behind : middle ≤ later)
    (inside : later < operations.length) :
    (ofSequence depends operations).Edge (nodeOf operations later) (nodeOf operations earlier) := by
  have built := DependencyDraft.built_ofSequence depends operations
  have dependent := (across later earlier).mpr ⟨before, behind, inside⟩
  refine (built.nearest _ _).mpr ⟨?_, ?_⟩
  · exact (conflict_nodeOf inside (Nat.lt_trans dependent.1 inside)).mpr dependent
  · intro other conflict path
    rcases exists_dependsOn_of_conflict conflict with ⟨nearer, child, fromOther, rfl, _⟩
    rcases TransGen.tail'_iff.mp path with ⟨last, _, edge⟩
    rcases exists_dependsOn_of_conflict (built.conflict_of_edge edge) with
      ⟨upper, lower, fromLast, _, same⟩
    have nearerBehind := ((across nearer child).mp fromOther).2
    have lowerBefore := ((across upper lower).mp fromLast).1
    rw [nodeOf, nodeOf] at same
    omega

theorem mul_le_edgeCount (across : DependsAcross depends operations middle)
    (inside : middle ≤ operations.length) :
    middle * (operations.length - middle) ≤ (ofSequence depends operations).edgeCount := by
  have built := DependencyDraft.built_ofSequence depends operations
  have bounds {pair : Nat × Nat}
      (member : pair ∈ Finset.range middle ×ˢ Finset.Ico middle operations.length) :
      pair.1 < middle ∧ middle ≤ pair.2 ∧ pair.2 < operations.length := by
    rwa [Finset.mem_product, Finset.mem_range, Finset.mem_Ico] at member
  calc middle * (operations.length - middle)
      = (Finset.range middle ×ˢ Finset.Ico middle operations.length).card := by
        rw [Finset.card_product, Finset.card_range, Nat.card_Ico]
    _ ≤ (ofSequence depends operations).edgePairs.card := by
        refine Finset.card_le_card_of_injOn
          (fun pair => (nodeOf operations pair.1, nodeOf operations pair.2)) ?_ ?_
        · intro pair member
          rcases bounds member with ⟨before, behind, inside⟩
          exact mem_edgePairs.mpr (edge_of_dependsAcross across before behind inside)
        · intro first firstMember second secondMember same
          have firstBounds := bounds firstMember
          have secondBounds := bounds secondMember
          simp only [nodeOf, Prod.mk.injEq] at same
          apply Prod.ext <;> omega
    _ = (ofSequence depends operations).edgeCount := card_edgePairs built.nodup

end Halves

/-! ## Circuits -/

theorem numbered_relabel {β : Type} {label : α → β} :
    (graph.relabel label).Numbered ↔ graph.Numbered := by
  have size : (graph.relabel label).size = graph.size := List.length_map _
  have edges : (graph.relabel label).edgeCount = graph.edgeCount := by
    rw [edgeCount, relabel, List.flatMap_map, edgeCount]
  constructor
  · exact fun numbered => ⟨size ▸ numbered.nodes, edges ▸ numbered.edges⟩
  · exact fun numbered => ⟨size.symm ▸ numbered.nodes, edges.symm ▸ numbered.edges⟩

/-- There are numbers for the blocks of a short circuit. -/
theorem numbered_ofCircuit {circuit : Circuit} (short : circuit.size < 131072) :
    (ofCircuit circuit).Numbered :=
  numbered_relabel.mpr (numbered_ofSequence _ (by rwa [List.length_zipIdx]))

/-- Rotations of one qubit about X, and then as many about Z. -/
def turnedHalves (count : Nat) : Circuit :=
  ⟨1, List.replicate count (.rotation [.X] .eighth) ++
    List.replicate count (.rotation [.Z] .eighth)⟩

theorem dependsAcross_turnedHalves (count : Nat) :
    DependsAcross (fun earlier later : Block × Nat => !earlier.1.productsCommute later.1)
      (turnedHalves count).blocks.zipIdx count := by
  have blockAt {position : Nat} {entry : Block × Nat}
      (found : (turnedHalves count).blocks.zipIdx[position]? = some entry) :
      entry.1 = if position < count then .rotation [.X] .eighth else .rotation [.Z] .eighth := by
    rw [List.getElem?_zipIdx, Option.map_eq_some_iff] at found
    rcases found with ⟨block, found, rfl⟩
    rw [turnedHalves, List.getElem?_append, List.length_replicate] at found
    split at found
    · next before => rw [if_pos before, List.eq_of_mem_replicate (List.mem_of_getElem? found)]
    · next behind => rw [if_neg behind, List.eq_of_mem_replicate (List.mem_of_getElem? found)]
  intro later earlier
  constructor
  · rintro ⟨order, first, second, foundFirst, foundSecond, clash⟩
    have inside := (List.getElem?_eq_some_iff.mp foundSecond).1
    simp only [blockAt foundFirst, blockAt foundSecond] at clash
    by_cases before : earlier < count
    · by_cases alsoBefore : later < count
      · rw [if_pos before, if_pos alsoBefore] at clash
        exact absurd clash (by decide)
      · exact ⟨before, by omega, inside⟩
    · rw [if_neg before, if_neg (by omega)] at clash
      exact absurd clash (by decide)
  · rintro ⟨before, behind, inside⟩
    have order : earlier < later := by omega
    refine ⟨order, _, _, List.getElem?_eq_getElem (Nat.lt_trans order inside),
      List.getElem?_eq_getElem inside, ?_⟩
    simp only [blockAt (List.getElem?_eq_getElem (Nat.lt_trans order inside)),
      blockAt (List.getElem?_eq_getElem inside), if_pos before, if_neg (Nat.not_lt.mpr behind)]
    decide

theorem not_numbered_turnedHalves {count : Nat} (many : Storage.indices < count * count) :
    ¬ (ofCircuit (turnedHalves count)).Numbered := by
  have length : (turnedHalves count).blocks.zipIdx.length = count + count := by
    simp [turnedHalves]
  have edges := mul_le_edgeCount (dependsAcross_turnedHalves count) (by omega)
  rw [length, Nat.add_sub_cancel] at edges
  intro numbered
  exact absurd (Nat.le_trans edges (numbered_relabel.mp numbered).edges) (Nat.not_le_of_lt many)

end LatticeSurgery.DependencyGraph
