import LatticeSurgery.Proofs.Circuit.Litinski

namespace LatticeSurgery

open Matrix

/-! # Replacing Y

A conjugation by quarter rotations about Z turns X into Y at an odd number of
positions. The conjugations that surround a block without Y therefore restore the
operator of the block exactly. -/

namespace PauliString

variable {width : Nat}

theorem length_zOn (positions : List Nat) : (Block.zOn width positions).length = width := by
  simp [Block.zOn]

theorem symbolAt_zOn {positions : List Nat} {qubit : Nat} (inside : qubit < width) :
    (Block.zOn width positions).symbolAt qubit = if qubit ∈ positions then .Z else .I := by
  rw [symbolAt_of_lt (by rw [length_zOn]; exact inside)]
  simp [Block.zOn]

/-- A product of Z anticommutes with a string that has X at an odd number of its
positions and multiplies these positions to Y. -/
private theorem anticommutes_zOn {symbols : PauliString} {positions : List Nat}
    (nodup : positions.Nodup) (onX : ∀ qubit ∈ positions, symbols.symbolAt qubit = .X)
    (odd : positions.length % 2 = 1) :
    (Block.zOn symbols.length positions).commutes symbols = false := by
  have inside : ∀ qubit ∈ positions, qubit < symbols.length := fun qubit member =>
    lt_length_of_symbolAt (by rw [onX qubit member]; decide)
  have clashes : ∀ qubit ∈ List.range symbols.length,
      (!((Block.zOn symbols.length positions).symbolAt qubit).commutes (symbols.symbolAt qubit)) =
        decide (qubit ∈ positions) := by
    intro qubit member
    rw [symbolAt_zOn (List.mem_range.mp member)]
    by_cases acts : qubit ∈ positions
    · simp [acts, onX qubit acts, Pauli.commutes]
    · simp [acts, Pauli.commutes]
  have counted : (List.range symbols.length).countP (fun qubit => decide (qubit ∈ positions)) =
      positions.length := by
    rw [List.countP_eq_length_filter]
    apply List.Perm.length_eq
    rw [List.perm_ext_iff_of_nodup (List.nodup_range.filter _) nodup]
    intro qubit
    simpa using fun member => inside qubit member
  rw [commutes, anticommutingPositions_eq_countP (length_zOn positions),
    List.countP_congr (fun qubit member => by rw [clashes qubit member]), counted, odd]
  rfl

private theorem symbolAt_zOn_mul {symbols : PauliString} {positions : List Nat}
    (onX : ∀ qubit ∈ positions, symbols.symbolAt qubit = .X) (qubit : Nat) :
    ((Block.zOn symbols.length positions).mul symbols).2.symbolAt qubit =
      if qubit ∈ positions then .Y else symbols.symbolAt qubit := by
  rw [symbolAt_mul_snd (length_zOn positions)]
  by_cases inside : qubit < symbols.length
  · rw [symbolAt_zOn inside]
    by_cases acts : qubit ∈ positions
    · simp [acts, onX qubit acts, Pauli.mul]
    · simp [acts, Pauli.mul]
  · have outside := Nat.le_of_not_lt inside
    have notMember : qubit ∉ positions := fun member =>
      inside (lt_length_of_symbolAt (by rw [onX qubit member]; decide))
    rw [if_neg notMember, symbolAt_of_length_le outside,
      symbolAt_of_length_le (by rw [length_zOn]; exact outside)]
    rfl

end PauliString

namespace Block

variable {width : Nat}

private theorem phase_eq_of_sq_eq_neg_one {phase : Phase}
    (squared : phase.toComplex * phase.toComplex = -1) :
    phase.toComplex = Complex.I ∧ Phase.negI * phase = Phase.one ∨
      phase.toComplex = -Complex.I ∧ Phase.negI * phase ≠ Phase.one := by
  have factored : (phase.toComplex - Complex.I) * (phase.toComplex + Complex.I) = 0 := by
    rw [sub_mul, mul_add, mul_add, squared, Complex.I_mul_I]
    ring
  rcases mul_eq_zero.mp factored with plus | minus
  · have phaseEq := sub_eq_zero.mp plus
    exact .inl ⟨phaseEq, Phase.toComplex_injective (by simp [phaseEq])⟩
  · have phaseEq := eq_neg_of_add_eq_zero_left minus
    refine .inr ⟨phaseEq, fun cancels => ?_⟩
    have value := congrArg Phase.toComplex cancels
    norm_num [phaseEq] at value

private theorem conjugate_fst (inner : PauliString × List Block) (conjugator : PauliString) :
    (conjugate inner conjugator).1 = (conjugator.mul inner.1).2 := by
  simp only [conjugate]
  split <;> rfl

/-- Blocks that act together as one block of a kind with the given product. -/
structure ActsAs (width : Nat) (kind : BlockKind) (symbols : PauliString) (blocks : List Block) :
    Prop where
  length_eq : symbols.length = width
  uniform : ∀ block ∈ blocks, block.width = width
  measurementCount_eq : measurementCount blocks = measurementCount [⟨symbols, kind⟩]
  evolution_eq : ∀ outcomes, evolution width blocks outcomes =
    kind.action (outcomes 0) (symbols.operator width)

theorem ActsAs.core {kind : BlockKind} {symbols : PauliString}
    (length_eq : symbols.length = width) :
    ActsAs width kind symbols [⟨symbols, kind⟩] where
  length_eq := length_eq
  uniform := by simpa [Block.width] using length_eq
  measurementCount_eq := rfl
  evolution_eq outcomes := by rw [evolution_singleton, operator]

/-- Surrounding blocks by a rotation and its inverse turns their product. -/
private theorem ActsAs.surround {kind : BlockKind} {symbols product conjugator : PauliString}
    {blocks : List Block} {angle opposite : Angle} (acts : ActsAs width kind symbols blocks)
    (conjugatorWidth : conjugator.length = width) (productWidth : product.length = width)
    (opposed : opposite.value = -angle.value)
    (turned : (conjugator.operator width).rotation angle.value * symbols.operator width =
      product.operator width * (conjugator.operator width).rotation angle.value) :
    ActsAs width kind product
      (rotation conjugator opposite :: blocks ++ [rotation conjugator angle]) where
  length_eq := productWidth
  uniform := by
    intro block member
    rw [List.mem_append, List.mem_cons, List.mem_singleton] at member
    rcases member with (rfl | member) | rfl
    · exact conjugatorWidth
    · exact acts.uniform block member
    · exact conjugatorWidth
  measurementCount_eq := by
    have noMeasurement (amount : Angle) : measurementCount [rotation conjugator amount] = 0 := rfl
    have sameKind : measurementCount [⟨product, kind⟩] = measurementCount [⟨symbols, kind⟩] := rfl
    rw [measurementCount_append, measurementCount_cons, noMeasurement, noMeasurement,
      acts.measurementCount_eq, sameKind, Nat.zero_add, Nat.add_zero]
  evolution_eq outcomes := by
    have involution (string : PauliString) : string.operator width * string.operator width = 1 :=
      string.operator_mul_self
    have carried := kind.mul_action (involution _) (involution _) turned (outcomes 0)
    rw [evolution_append, evolution_singleton, evolution_cons]
    change (conjugator.operator width).rotation angle.value * (evolution width blocks
      (outcomes.after 0) * (conjugator.operator width).rotation opposite.value) = _
    rw [Outcomes.after_zero, acts.evolution_eq, ← mul_assoc, carried, mul_assoc, opposed,
      Operator.rotation_mul_neg, mul_one]

/-- One conjugation by an anticommuting product. -/
private theorem ActsAs.conjugate {kind : BlockKind} {inner : PauliString × List Block}
    {conjugator : PauliString} (acts : ActsAs width kind inner.1 inner.2)
    (conjugatorWidth : conjugator.length = width)
    (clashing : conjugator.commutes inner.1 = false) :
    ActsAs width kind (Block.conjugate inner conjugator).1
      (Block.conjugate inner conjugator).2 := by
  have involution : conjugator.operator width * conjugator.operator width = 1 :=
    conjugator.operator_mul_self
  have anticommuting := PauliString.operator_anticommute conjugatorWidth acts.length_eq clashing
  have product := PauliString.operator_mul conjugatorWidth acts.length_eq
  have productWidth : (conjugator.mul inner.1).2.length = width := by
    rw [PauliString.length_mul_snd, conjugatorWidth, acts.length_eq, min_self]
  rcases phase_eq_of_sq_eq_neg_one
    (PauliString.phase_sq_of_anticommute conjugatorWidth acts.length_eq clashing) with
    ⟨phaseEq, chosen⟩ | ⟨phaseEq, notChosen⟩
  · simp only [Block.conjugate, chosen, if_true]
    refine acts.surround conjugatorWidth productWidth (by simp)
      (Operator.rotation_mul_of_turned involution anticommuting ?_)
    rw [Angle.value_quarter, show (2 : ℚ) * (1 / 4) = 1 / 2 by norm_num,
      Operator.rotation_half involution, smul_mul_assoc, product, phaseEq, smul_smul]
    simp
  · simp only [Block.conjugate, notChosen, if_false]
    refine acts.surround conjugatorWidth productWidth (by simp)
      (Operator.rotation_mul_of_turned involution anticommuting ?_)
    rw [Angle.value_negQuarter, show (2 : ℚ) * -(1 / 4) = -(1 / 2) by norm_num,
      Operator.rotation_neg_half involution, smul_mul_assoc, product, phaseEq, smul_smul]
    simp

/-- A conjugation about Z at positions that hold X makes them hold Y. -/
private theorem ActsAs.conjugate_zOn {kind : BlockKind} {inner : PauliString × List Block}
    {positions : List Nat} (acts : ActsAs width kind inner.1 inner.2) (nodup : positions.Nodup)
    (onX : ∀ qubit ∈ positions, inner.1.symbolAt qubit = .X) (odd : positions.length % 2 = 1) :
    ActsAs width kind (Block.conjugate inner (zOn width positions)).1
        (Block.conjugate inner (zOn width positions)).2 ∧
      ∀ qubit, (Block.conjugate inner (zOn width positions)).1.symbolAt qubit =
        if qubit ∈ positions then .Y else inner.1.symbolAt qubit := by
  have clashing := PauliString.anticommutes_zOn nodup onX odd
  have symbols := PauliString.symbolAt_zOn_mul onX
  rw [acts.length_eq] at clashing symbols
  refine ⟨acts.conjugate (PauliString.length_zOn positions) clashing, ?_⟩
  rw [conjugate_fst]
  exact symbols

/-- Conjugations at different positions, one after the other. -/
private theorem actsAs_conjugations {kind : BlockKind} {groups : List (List Nat)}
    (inner : PauliString × List Block) (acts : ActsAs width kind inner.1 inner.2)
    (nodup : groups.flatten.Nodup)
    (onX : ∀ qubit ∈ groups.flatten, inner.1.symbolAt qubit = .X)
    (odd : ∀ group ∈ groups, group.length % 2 = 1) :
    ActsAs width kind ((groups.map (zOn width)).foldl Block.conjugate inner).1
        ((groups.map (zOn width)).foldl Block.conjugate inner).2 ∧
      ∀ qubit, ((groups.map (zOn width)).foldl Block.conjugate inner).1.symbolAt qubit =
        if qubit ∈ groups.flatten then .Y else inner.1.symbolAt qubit := by
  induction groups generalizing inner with
  | nil => exact ⟨acts, fun qubit => by simp⟩
  | cons group rest induction =>
      rw [List.flatten_cons] at nodup onX
      rcases List.nodup_append.mp nodup with ⟨groupNodup, restNodup, disjoint⟩
      rcases acts.conjugate_zOn groupNodup
        (fun qubit member => onX qubit (List.mem_append_left _ member))
        (odd group List.mem_cons_self) with ⟨groupActs, groupSymbols⟩
      have restOnX : ∀ qubit ∈ rest.flatten,
          (Block.conjugate inner (zOn width group)).1.symbolAt qubit = .X := by
        intro qubit member
        have outside : qubit ∉ group := fun inGroup => disjoint qubit inGroup qubit member rfl
        rw [groupSymbols, if_neg outside, onX qubit (List.mem_append_right _ member)]
      rcases induction _ groupActs restNodup restOnX
        (fun other member => odd other (List.mem_cons_of_mem _ member)) with ⟨restActs, symbols⟩
      refine ⟨restActs, fun qubit => ?_⟩
      rw [List.map_cons, List.foldl_cons, symbols, groupSymbols, List.flatten_cons]
      by_cases inRest : qubit ∈ rest.flatten <;> by_cases inGroup : qubit ∈ group <;>
        simp [inRest, inGroup]

/-! ## The positions of Y -/

theorem yPositions_eq_filter (symbols : PauliString) :
    yPositions symbols =
      (List.range symbols.length).filter fun qubit => symbols.symbolAt qubit = .Y := by
  rw [yPositions, PauliString.zipIdx_eq_map_range, List.filterMap_map, ← List.filterMap_eq_filter]
  congr
  funext qubit
  simp [Option.guard]

theorem mem_yPositions {symbols : PauliString} {qubit : Nat} :
    qubit ∈ yPositions symbols ↔ symbols.symbolAt qubit = .Y := by
  rw [yPositions_eq_filter, List.mem_filter, List.mem_range, decide_eq_true_eq]
  exact and_iff_right_of_imp fun isY =>
    PauliString.lt_length_of_symbolAt (by rw [isY]; decide)

theorem nodup_yPositions (symbols : PauliString) : (yPositions symbols).Nodup := by
  rw [yPositions_eq_filter]
  exact List.nodup_range.filter _

theorem symbolAt_xForY (symbols : PauliString) (qubit : Nat) :
    (xForY symbols).symbolAt qubit =
      if symbols.symbolAt qubit = .Y then .X else symbols.symbolAt qubit := by
  by_cases inside : qubit < symbols.length
  · rw [PauliString.symbolAt_of_lt (by simpa [xForY] using inside),
      PauliString.symbolAt_of_lt inside]
    simp [xForY]
  · have outside := Nat.le_of_not_lt inside
    rw [PauliString.symbolAt_of_length_le outside,
      PauliString.symbolAt_of_length_le (by simpa [xForY] using outside)]
    rfl

/-! The positions of Y are distributed over the conjugations, an odd number each. -/

private theorem flatten_conjugationGroups (positions : List Nat) :
    (conjugationGroups positions).flatten.Perm positions := by
  rw [conjugationGroups]
  split
  · simp
  · rw [List.flatten_cons, List.flatten_cons, List.flatten_nil, List.append_nil]
    exact List.perm_append_comm.trans
      (.of_eq (List.take_append_drop (positions.length - 1) positions))

private theorem odd_of_mem_conjugationGroups {positions group : List Nat}
    (nonempty : positions ≠ []) (member : group ∈ conjugationGroups positions) :
    group.length % 2 = 1 := by
  have positive := List.length_pos_iff.mpr nonempty
  rw [conjugationGroups] at member
  split at member
  · next odd => rwa [List.mem_singleton.mp member]
  · rw [List.mem_cons, List.mem_singleton] at member
    rcases member with rfl | rfl
    · rw [List.length_drop]
      omega
    · rw [List.length_take]
      omega

/-- The conjugations of a block that contains Y restore its product exactly. -/
theorem conjugations_restore {block : Block} (some : yPositions block.symbols ≠ []) :
    (conjugations block).1 = block.symbols ∧
      ActsAs block.width block.kind block.symbols (conjugations block).2 := by
  have coreLength : (xForY block.symbols).length = block.width := by
    rw [xForY, List.length_map]
    rfl
  have core : ActsAs block.width block.kind (xForY block.symbols)
      [{ block with symbols := xForY block.symbols }] := ActsAs.core coreLength
  have groups := flatten_conjugationGroups (yPositions block.symbols)
  have nodup := groups.nodup_iff.mpr (nodup_yPositions block.symbols)
  have onX : ∀ qubit ∈ (conjugationGroups (yPositions block.symbols)).flatten,
      (xForY block.symbols).symbolAt qubit = .X := by
    intro qubit member
    rw [symbolAt_xForY, if_pos (mem_yPositions.mp (groups.mem_iff.mp member))]
  rcases actsAs_conjugations (xForY block.symbols, _) core nodup onX
    (fun _ member => odd_of_mem_conjugationGroups some member) with ⟨acts, symbols⟩
  have restored : (conjugations block).1 = block.symbols := by
    apply PauliString.ext_symbolAt acts.length_eq
    intro qubit
    rw [symbols, symbolAt_xForY]
    by_cases isY : block.symbols.symbolAt qubit = .Y
    · rw [if_pos (groups.mem_iff.mpr (mem_yPositions.mpr isY)), isY]
    · rw [if_neg (fun member => isY (mem_yPositions.mp (groups.mem_iff.mp member))), if_neg isY]
  constructor
  · exact restored
  · rw [← restored]
    exact acts

/-- The blocks that replace a block act as the block does. -/
theorem actsAs_yFree {block : Block} (blockWidth : block.width = width) :
    ActsAs width block.kind block.symbols (yFree block) := by
  rw [yFree, ← blockWidth]
  by_cases none : yPositions block.symbols = []
  · rw [none]
    exact ActsAs.core rfl
  · rw [if_neg (by rwa [List.isEmpty_iff])]
    exact (conjugations_restore none).2

/-- The assertion on the product is never broken. -/
theorem checkedYFree_eq (block : Block) : block.checkedYFree = .ok block.yFree := by
  rw [checkedYFree, yFree]
  split
  · rfl
  · next some =>
      rw [List.isEmpty_iff] at some
      rw [if_neg (not_not.mpr (conjugations_restore some).1)]

theorem agreeUpTo_yFree {block : Block} (blockWidth : block.width = width) :
    AgreeUpTo width 1 [block] (yFree block) where
  measurementCount_eq := (actsAs_yFree blockWidth).measurementCount_eq.symm
  evolution_eq outcomes := by
    rw [(actsAs_yFree blockWidth).evolution_eq, evolution_singleton, one_smul, operator]

end Block

namespace Circuit

/-- A circuit and its form without Y evolve alike. -/
theorem agreeUpTo_yFree {circuit : Circuit} (uniform : circuit.Uniform) :
    Block.AgreeUpTo circuit.qubits 1 circuit.blocks circuit.yFree.blocks := by
  have replaced : List.Forall₂ (fun block part => ∃ factor ∈ (⊥ : Submonoid ℂ),
      Block.AgreeUpTo circuit.qubits factor [block] part)
      circuit.blocks (circuit.blocks.map Block.yFree) := by
    rw [List.forall₂_map_right_iff, List.forall₂_same]
    intro block member
    exact ⟨1, Submonoid.one_mem _, Block.agreeUpTo_yFree (uniform block member)⟩
  rcases Block.AgreeUpTo.flatten replaced with ⟨factor, trivial, agrees⟩
  rw [Submonoid.mem_bot.mp trivial] at agrees
  simpa [yFree, List.flatMap] using agrees

theorem uniform_yFree {circuit : Circuit} (uniform : circuit.Uniform) :
    circuit.yFree.Uniform := by
  intro block member
  rcases List.mem_flatMap.mp member with ⟨source, sourceMember, member⟩
  exact (Block.actsAs_yFree (uniform source sourceMember)).uniform block member

end Circuit

end LatticeSurgery
