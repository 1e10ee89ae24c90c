import LatticeSurgery.Proofs.Circuit.YFree

namespace LatticeSurgery.Block

/-! # The form without Y

Quarter rotations about products of Z stand around the block, and each of them is undone on
the other side. Which rotations these are depends on the product of the block alone. -/

variable {width : Nat} {before after : List Block}

/-- A quarter rotation about a product of Z, forwards or backwards. -/
structure TurnsAboutZ (width : Nat) (block : Block) : Prop where
  width_eq : block.width = width
  symbols : ∀ symbol ∈ block.symbols, symbol = .I ∨ symbol = .Z
  kind : block.kind = .rotation .quarter ∨ block.kind = .rotation .negQuarter

theorem turnsAboutZ_zOn (positions : List Nat) {angle : Angle}
    (size : angle = .quarter ∨ angle = .negQuarter) :
    TurnsAboutZ width (rotation (zOn width positions) angle) where
  width_eq := PauliString.length_zOn positions
  symbols symbol member := by
    have choice := List.mem_map.mp member
    cases choice with
    | intro qubit chosen =>
        rw [← chosen.2]
        by_cases acts : qubit ∈ positions <;> simp [acts]
  kind := by simpa [rotation] using size

/-- Rotations in front of a block, and behind it their opposites in the opposite order. -/
structure Mirrored (width : Nat) (before after : List Block) : Prop where
  aboutZ : ∀ block ∈ before ++ after, block.TurnsAboutZ width
  opposite : List.Forall₂ (fun first last => first.flipSign = .ok last) before after.reverse

namespace Mirrored

theorem nil : Mirrored width [] [] := ⟨List.forall_mem_nil _, .nil⟩

theorem length_eq (mirrored : Mirrored width before after) : after.length = before.length := by
  rw [mirrored.opposite.length_eq, List.length_reverse]

/-- One more conjugation, around all the others. -/
theorem surround (mirrored : Mirrored width before after) {first last : Block}
    (firstTurns : first.TurnsAboutZ width) (lastTurns : last.TurnsAboutZ width)
    (flips : first.flipSign = .ok last) : Mirrored width (first :: before) (after ++ [last]) where
  aboutZ := by
    rw [List.cons_append, ← List.append_assoc, List.forall_mem_cons, List.forall_mem_append,
      List.forall_mem_singleton]
    exact ⟨firstTurns, mirrored.aboutZ, lastTurns⟩
  opposite := by
    rw [List.reverse_append, List.reverse_singleton, List.singleton_append]
    exact .cons flips mirrored.opposite

end Mirrored

/-- The rotations of a conjugation do not depend on the blocks between them. -/
private theorem exists_conjugate (current : PauliString) (positions : List Nat) :
    ∃ first last, first.TurnsAboutZ width ∧ last.TurnsAboutZ width ∧
      first.flipSign = .ok last ∧
      ∀ blocks, conjugate (current, blocks) (zOn width positions) =
        (((zOn width positions).mul current).2, first :: blocks ++ [last]) := by
  have forwards := @turnsAboutZ_zOn width positions _ (.inl rfl)
  have backwards := @turnsAboutZ_zOn width positions _ (.inr rfl)
  by_cases chosen : Phase.negI * ((zOn width positions).mul current).1 = Phase.one
  · exact ⟨_, _, backwards, forwards, rfl, fun blocks => by simp [conjugate, chosen]⟩
  · exact ⟨_, _, forwards, backwards, rfl, fun blocks => by simp [conjugate, chosen]⟩

private theorem exists_conjugates (groups : List (List Nat)) (current : PauliString)
    (mirrored : Mirrored width before after) :
    ∃ left right, Mirrored width left right ∧ left.length = before.length + groups.length ∧
      ∀ core, ((groups.map (zOn width)).foldl conjugate (current, before ++ core :: after)).2 =
        left ++ core :: right := by
  induction groups generalizing current before after with
  | nil => exact ⟨before, after, mirrored, rfl, fun _ => rfl⟩
  | cons group rest induction =>
      rcases @exists_conjugate width current group with
        ⟨first, last, firstTurns, lastTurns, flips, conjugated⟩
      rcases induction ((zOn width group).mul current).2
        (mirrored.surround firstTurns lastTurns flips) with ⟨left, right, outer, count, surrounds⟩
      refine ⟨left, right, outer, ?_, fun core => ?_⟩
      · rw [count, List.length_cons, List.length_cons]
        omega
      · rw [← surrounds core, List.map_cons, List.foldl_cons, conjugated]
        simp

/-! ## Blocks without Y -/

theorem containsY_eq_false_iff {block : Block} : block.containsY = false ↔ .Y ∉ block.symbols := by
  rw [containsY, PauliString.containsY, List.contains_eq_mem, decide_eq_false_iff_not]

theorem length_yPositions (symbols : PauliString) :
    (yPositions symbols).length = symbols.count .Y := by
  have counted : (yPositions symbols).length = symbols.zipIdx.countP fun entry => entry.1 = .Y := by
    rw [yPositions, List.length_filterMap_eq_countP]
    congr 1
    funext entry
    by_cases isY : entry.1 = .Y <;> simp [isY]
  have projected : symbols = symbols.zipIdx.map Prod.fst := by simp
  rw [counted]
  conv_rhs => rw [projected]
  rw [List.count, List.countP_map]
  congr 1

theorem yPositions_eq_nil_iff {block : Block} :
    yPositions block.symbols = [] ↔ block.containsY = false := by
  rw [← List.length_eq_zero_iff, length_yPositions, containsY_eq_false_iff, List.count_eq_zero]

theorem xForY_eq_self {block : Block} (withoutY : block.containsY = false) :
    xForY block.symbols = block.symbols := by
  have kept : ∀ symbol ∈ block.symbols, (if symbol = .Y then .X else symbol) = symbol := by
    intro symbol member
    apply if_neg
    rintro rfl
    exact containsY_eq_false_iff.mp withoutY member
  exact (List.map_congr_left kept).trans (List.map_id' _)

theorem yFree_eq_self {block : Block} (withoutY : block.containsY = false) :
    yFree block = [block] := by
  rw [yFree, yPositions_eq_nil_iff.mpr withoutY]
  rfl

/-- The form without Y of all blocks with the same product. -/
theorem exists_mirrored_yFree (symbols : PauliString) :
    ∃ before after, Mirrored symbols.length before after ∧
      before.length = (if symbols.count .Y = 0 then 0
        else if symbols.count .Y % 2 = 1 then 1 else 2) ∧
      ∀ kind, yFree ⟨symbols, kind⟩ = before ++ ⟨xForY symbols, kind⟩ :: after := by
  by_cases none : symbols.count .Y = 0
  · have withoutY (kind : BlockKind) : (Block.mk symbols kind).containsY = false :=
      containsY_eq_false_iff.mpr (List.count_eq_zero.mp none)
    have same := xForY_eq_self (withoutY (.measurement false))
    refine ⟨[], [], .nil, by rw [if_pos none]; rfl, fun kind => ?_⟩
    rw [yFree_eq_self (withoutY kind), same]
    rfl
  · have present : (yPositions symbols).isEmpty = false := by
      rw [List.isEmpty_eq_false_iff, ne_eq, ← List.length_eq_zero_iff, length_yPositions]
      exact none
    rcases exists_conjugates (conjugationGroups (yPositions symbols)) (xForY symbols)
      (@Mirrored.nil symbols.length) with ⟨before, after, mirrored, count, surrounds⟩
    refine ⟨before, after, mirrored, ?_, fun kind => ?_⟩
    · rw [count, if_neg none, conjugationGroups, length_yPositions]
      split <;> rfl
    · rw [yFree, present, if_neg Bool.false_ne_true]
      exact surrounds ⟨xForY symbols, kind⟩

theorem TurnsAboutZ.containsY_eq {block : Block} (turns : block.TurnsAboutZ width) :
    block.containsY = false := by
  rw [containsY_eq_false_iff]
  intro member
  have choice := turns.symbols .Y member
  simp at choice

theorem containsY_of_mem_yFree {block member : Block} (emitted : member ∈ yFree block) :
    member.containsY = false := by
  rcases exists_mirrored_yFree block.symbols with ⟨before, after, mirrored, _, surrounds⟩
  rw [surrounds block.kind, List.perm_middle.mem_iff, List.mem_cons] at emitted
  cases emitted with
  | inl isCore =>
      rw [isCore, containsY_eq_false_iff]
      simp only [xForY, List.mem_map, not_exists, not_and]
      intro symbol _
      cases symbol <;> simp
  | inr around => exact (mirrored.aboutZ member around).containsY_eq

/-- The form of a block without Y is the block with X in place of Y, with no, two or four
quarter rotations about products of Z around it that undo each other. It acts exactly as the
block does, and the product is restored as it is asserted to be. -/
theorem checkedYFree_exact (block : Block) :
    ∃ before after, block.checkedYFree =
        .ok (before ++ { block with symbols := xForY block.symbols } :: after) ∧
      Mirrored block.width before after ∧
      (before ++ after).length = (if block.symbols.count .Y = 0 then 0
        else if block.symbols.count .Y % 2 = 1 then 2 else 4) ∧
      (∀ member ∈ before ++ { block with symbols := xForY block.symbols } :: after,
        member.containsY = false) ∧
      ∀ outcomes, evolution block.width
          (before ++ { block with symbols := xForY block.symbols } :: after) outcomes =
        block.operator block.width (outcomes 0) := by
  rcases exists_mirrored_yFree block.symbols with ⟨before, after, mirrored, count, surrounds⟩
  have form : block.yFree = before ++ { block with symbols := xForY block.symbols } :: after :=
    surrounds block.kind
  refine ⟨before, after, ?_, mirrored, ?_, ?_, ?_⟩
  · rw [checkedYFree_eq, form]
  · rw [List.length_append, mirrored.length_eq, count]
    split
    · rfl
    · split <;> rfl
  · rw [← form]
    exact fun member => containsY_of_mem_yFree
  · rw [← form]
    exact (actsAs_yFree rfl).evolution_eq

end LatticeSurgery.Block
