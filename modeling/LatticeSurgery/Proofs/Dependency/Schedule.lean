import LatticeSurgery.Proofs.Dependency.Blocks
import LatticeSurgery.Proofs.Operator.Evolution
import Mathlib.Data.List.Nodup

namespace LatticeSurgery

open Relation

/-! # Schedules

A schedule performs the blocks of a circuit in an order of its own. When it follows the edges
of the dependency graph, exchanges of adjacent blocks that commute turn it into the order of
the circuit, so the register evolves in the same way. -/

namespace Pauli

theorem commutes_comm (left right : Pauli) : left.commutes right = right.commutes left := by
  cases left <;> cases right <;> rfl

end Pauli

namespace PauliString

theorem commutes_comm (left right : PauliString) : left.commutes right = right.commutes left := by
  rw [commutes, commutes, anticommutingPositions, anticommutingPositions,
    ← List.zip_swap right left, List.countP_map]
  simp [Function.comp_def, Pauli.commutes_comm]

end PauliString

namespace Block

theorem commutes_of_width {left right : Block} (sameWidth : left.width = right.width) :
    left.commutes right = .ok (left.productsCommute right) := if_pos sameWidth

/-- The operators of blocks that commute can be exchanged, whatever the outcomes. -/
theorem commute_operator {width : Nat} {left right : Block} (leftWidth : left.width = width)
    (rightWidth : right.width = width) (commuting : left.productsCommute right = true)
    (leftOutcome rightOutcome : Outcome) :
    Commute (left.operator width leftOutcome) (right.operator width rightOutcome) := by
  have axes : Commute (left.symbols.operator width) (right.symbols.operator width) :=
    PauliString.operator_commute leftWidth rightWidth commuting
  have involution (block : Block) :
      block.symbols.operator width * block.symbols.operator width = 1 :=
    block.symbols.operator_mul_self
  have past : Commute (left.symbols.operator width) (right.operator width rightOutcome) :=
    BlockKind.mul_action (involution right) (involution right) axes right.kind rightOutcome
  exact (BlockKind.mul_action (involution left) (involution left) past.symm left.kind
    leftOutcome).symm

end Block

/-- Blocks in the order in which they are performed, with their positions in the circuit. -/
abbrev Schedule := List (Block × Nat)

/-- The order of the circuit itself. -/
def Circuit.schedule (circuit : Circuit) : Schedule := circuit.blocks.zipIdx

namespace Schedule

/-! ## Exchanges -/

/-- Two adjacent blocks that commute change places. -/
inductive Exchange : Schedule → Schedule → Prop
  | swap (before after : Schedule) {first second : Block × Nat}
      (commuting : first.1.commutes second.1 = .ok true) :
      Exchange (before ++ first :: second :: after) (before ++ second :: first :: after)

theorem Exchange.cons {schedule next : Schedule} (exchange : Exchange schedule next)
    (entry : Block × Nat) : Exchange (entry :: schedule) (entry :: next) := by
  cases exchange with
  | swap before after commuting => exact .swap (entry :: before) after commuting

theorem exchanges_cons {schedule next : Schedule} (exchanges : ReflTransGen Exchange schedule next)
    (entry : Block × Nat) : ReflTransGen Exchange (entry :: schedule) (entry :: next) :=
  exchanges.lift (entry :: ·) fun _ _ exchange => exchange.cons entry

/-- A block moves to the front past blocks that commute with it. -/
theorem exchanges_front {before after : Schedule} {entry : Block × Nat}
    (commuting : ∀ other ∈ before, other.1.commutes entry.1 = .ok true) :
    ReflTransGen Exchange (before ++ entry :: after) (entry :: (before ++ after)) := by
  induction before with
  | nil => exact .refl
  | cons other before induction =>
      have moved := induction fun another member => commuting another (.tail _ member)
      apply (exchanges_cons moved other).tail
      exact .swap [] (before ++ after) (commuting other List.mem_cons_self)

/-- A schedule can be sorted when its entries commute wherever they stand in the wrong order. -/
theorem exchanges_of_pairwise {schedule sorted : Schedule} (permuted : schedule.Perm sorted)
    (ascending : sorted.Pairwise fun first second => first.2 < second.2)
    (commuting : schedule.Pairwise fun first second =>
      second.2 < first.2 → first.1.commutes second.1 = .ok true) :
    ReflTransGen Exchange schedule sorted := by
  -- The least entry of the schedule goes to the front, and the others are sorted behind it.
  induction sorted generalizing schedule with
  | nil => rw [permuted.eq_nil]
  | cons least rest induction =>
      rcases List.append_of_mem (permuted.mem_iff.mpr List.mem_cons_self) with
        ⟨before, after, rfl⟩
      have others : (before ++ after).Perm rest :=
        (List.perm_middle.symm.trans permuted).cons_inv
      rw [List.pairwise_cons] at ascending
      have passes : ∀ other ∈ before, other.1.commutes least.1 = .ok true := by
        intro other member
        apply (List.pairwise_append.mp commuting).2.2 other member least List.mem_cons_self
        exact ascending.1 other (others.mem_iff.mp (List.mem_append_left after member))
      have remaining : (before ++ after).Pairwise fun first second =>
          second.2 < first.2 → first.1.commutes second.1 = .ok true := by
        apply List.Pairwise.sublist _ commuting
        exact (List.Sublist.refl before).append (List.sublist_cons_self least after)
      exact (exchanges_front passes).trans
        (exchanges_cons (induction others ascending.2 remaining) least)

/-! ## Evolution -/

/-- The time-ordered product of the operators of a schedule, the last one leftmost. The
outcomes belong to the positions of the circuit. -/
noncomputable def evolution (width : Nat) (outcomes : Nat → Outcome) :
    Schedule → Operator width
  | [] => 1
  | entry :: rest => evolution width outcomes rest * entry.1.operator width (outcomes entry.2)

variable {width : Nat}

theorem evolution_append (outcomes : Nat → Outcome) (first second : Schedule) :
    evolution width outcomes (first ++ second) =
      evolution width outcomes second * evolution width outcomes first := by
  induction first with
  | nil => exact (mul_one _).symm
  | cons entry first induction =>
      rw [List.cons_append, evolution, induction, evolution, mul_assoc]

theorem evolution_eq_of_exchange {schedule next : Schedule}
    (uniform : ∀ entry ∈ schedule, entry.1.width = width) (exchange : Exchange schedule next)
    (outcomes : Nat → Outcome) :
    evolution width outcomes schedule = evolution width outcomes next := by
  cases exchange with
  | @swap before after first second commuting =>
      have firstWidth := uniform first (by simp)
      have secondWidth := uniform second (by simp)
      rw [Block.commutes_of_width (firstWidth.trans secondWidth.symm), Except.ok.injEq] at commuting
      have exchanged := Block.commute_operator firstWidth secondWidth commuting
        (outcomes first.2) (outcomes second.2)
      simp only [evolution_append, evolution]
      rw [mul_assoc (evolution width outcomes after) (second.1.operator _ _), ← exchanged.eq,
        ← mul_assoc (evolution width outcomes after)]

theorem Exchange.perm {schedule next : Schedule} (exchange : Exchange schedule next) :
    schedule.Perm next := by
  cases exchange with
  | swap before after commuting => exact (List.Perm.swap _ _ after).append_left before

/-- Exchanges keep the evolution. -/
theorem evolution_eq_of_exchanges {schedule final : Schedule}
    (uniform : ∀ entry ∈ schedule, entry.1.width = width)
    (exchanges : ReflTransGen Exchange schedule final) (outcomes : Nat → Outcome) :
    evolution width outcomes schedule = evolution width outcomes final := by
  induction exchanges using ReflTransGen.head_induction_on with
  | refl => rfl
  | head exchange _ induction =>
      rw [evolution_eq_of_exchange uniform exchange]
      apply induction
      intro entry member
      exact uniform entry (exchange.perm.mem_iff.mpr member)

/-- The outcomes of the measurements of a schedule, in the order in which it performs them. -/
def reports (schedule : Schedule) (outcomes : Nat → Outcome) : Block.Outcomes := fun index =>
  ((schedule.filter fun entry => entry.1.isMeasurement).map fun entry =>
    outcomes entry.2).getD index .plus

theorem evolution_eq (schedule : Schedule) (outcomes : Nat → Outcome) :
    Block.evolution width (schedule.map Prod.fst) (schedule.reports outcomes) =
      evolution width outcomes schedule := by
  induction schedule with
  | nil => rfl
  | cons entry rest induction =>
      rw [List.map_cons, Block.evolution_cons, evolution, ← induction]
      rcases entry with ⟨⟨symbols, angle | negative⟩, position⟩
      · -- A rotation takes no outcome, and its operator is the same for both.
        have none : Block.measurementCount [⟨symbols, .rotation angle⟩] = 0 := rfl
        rw [none, Block.Outcomes.after_zero]
        rfl
      · have later : (reports ((⟨symbols, .measurement negative⟩, position) :: rest)
            outcomes).after 1 = reports rest outcomes := by
          funext index
          rw [Block.Outcomes.after, Nat.add_comm]
          rfl
        rw [← later]
        rfl

end Schedule

/-! ## Dependencies -/

/-- The block at the later position does not commute with the one at the earlier position. -/
def Circuit.DependsOn (circuit : Circuit) (later earlier : Nat) : Prop :=
  earlier < later ∧ ∃ first second, circuit.blocks[earlier]? = some first ∧
    circuit.blocks[later]? = some second ∧ first.productsCommute second = false

namespace DependencyGraph

variable {circuit : Circuit}

theorem dependsOn_zipIdx {later earlier : Nat} :
    DependsOn (fun first second : Block × Nat => !first.1.productsCommute second.1)
      circuit.blocks.zipIdx later earlier ↔ circuit.DependsOn later earlier := by
  simp [DependsOn, Circuit.DependsOn, List.getElem?_zipIdx]

/-- An edge is a dependency of the blocks at the positions of its nodes. -/
theorem exists_dependsOn_of_edge {parent child : Nat}
    (edge : (ofCircuit circuit).Edge parent child) :
    ∃ later earlier, circuit.DependsOn later earlier ∧
      nodeOf circuit.blocks.zipIdx parent = later ∧ (ofCircuit circuit).operation? parent = later ∧
      nodeOf circuit.blocks.zipIdx child = earlier ∧
      (ofCircuit circuit).operation? child = earlier := by
  have built := DependencyDraft.built_ofSequence
    (fun first second : Block × Nat => !first.1.productsCommute second.1) circuit.blocks.zipIdx
  rcases exists_dependsOn_of_conflict (built.conflict_of_edge (edge_relabel.mp edge)) with
    ⟨later, earlier, dependent, rfl, rfl⟩
  have laterInside := dependent.lt_length
  have earlierInside := Nat.lt_trans dependent.1 laterInside
  refine ⟨later, earlier, dependsOn_zipIdx.mp dependent, nodeOf_nodeOf laterInside, ?_,
    nodeOf_nodeOf earlierInside, ?_⟩
  · rw [List.length_zipIdx] at laterInside
    exact operation?_ofCircuit laterInside
  · rw [List.length_zipIdx] at earlierInside
    exact operation?_ofCircuit earlierInside

/-- Every dependency has a path, though not always an edge. -/
theorem path_of_dependsOn {later earlier : Nat} (dependent : circuit.DependsOn later earlier) :
    TransGen (ofCircuit circuit).Edge (nodeOf circuit.blocks.zipIdx later)
      (nodeOf circuit.blocks.zipIdx earlier) := by
  have indexed := dependsOn_zipIdx.mpr dependent
  have inside := indexed.lt_length
  have path := (path_nodeOf inside (Nat.lt_trans dependent.1 inside)).mpr (.single indexed)
  exact path.lift id fun _ _ => edge_relabel.mpr

end DependencyGraph

namespace Schedule

open DependencyGraph

/-- The place at which a schedule performs the block of a position. -/
def placeOf (schedule : Schedule) (position : Nat) : Nat :=
  (schedule.map Prod.snd).idxOf position

/-- The block of every child comes before the block of its parent. -/
def Respects (schedule : Schedule) (graph : DependencyGraph Nat) : Prop :=
  ∀ parent child later earlier, graph.Edge parent child →
    graph.operation? parent = some later → graph.operation? child = some earlier →
      schedule.placeOf earlier < schedule.placeOf later

variable {circuit : Circuit} {schedule : Schedule}

/-- A schedule that follows the edges follows all dependencies, also those without an edge. -/
theorem respects_iff : schedule.Respects (ofCircuit circuit) ↔ ∀ later earlier,
    circuit.DependsOn later earlier → schedule.placeOf earlier < schedule.placeOf later := by
  constructor
  · intro respects later earlier dependent
    let place (node : Nat) := schedule.placeOf (nodeOf circuit.blocks.zipIdx node)
    have placed : ∀ parent child, (ofCircuit circuit).Edge parent child →
        place child < place parent := by
      intro parent child edge
      rcases exists_dependsOn_of_edge edge with ⟨_, _, _, rfl, labelled, rfl, childLabelled⟩
      exact respects parent child _ _ edge labelled childLabelled
    have along {source target : Nat} (path : TransGen (ofCircuit circuit).Edge source target) :
        place target < place source := by
      induction path with
      | single edge => exact placed _ _ edge
      | tail _ edge induction => exact Nat.lt_trans (placed _ _ edge) induction
    have before := along (path_of_dependsOn dependent)
    have inside := (dependsOn_zipIdx.mpr dependent).lt_length
    simpa only [place, nodeOf_nodeOf inside, nodeOf_nodeOf (Nat.lt_trans dependent.1 inside)]
      using before
  · intro follows parent child later earlier edge labelled childLabelled
    rcases exists_dependsOn_of_edge edge with
      ⟨_, _, dependent, _, itsLabel, _, childLabel⟩
    cases labelled.symm.trans itsLabel
    cases childLabelled.symm.trans childLabel
    exact follows later earlier dependent

theorem mem_schedule_iff {entry : Block × Nat} :
    entry ∈ circuit.schedule ↔ circuit.blocks[entry.2]? = some entry.1 :=
  List.mem_zipIdx_iff_getElem?

theorem ascending_schedule (circuit : Circuit) :
    circuit.schedule.Pairwise fun first second => first.2 < second.2 := by
  have positions : circuit.schedule.map Prod.snd = List.range' 0 circuit.blocks.length :=
    List.zipIdx_map_snd 0 circuit.blocks
  apply List.pairwise_map.mp
  rw [positions]
  exact List.pairwise_lt_range'

/-- Blocks that stand in the wrong order commute. -/
theorem commuting_of_respects {width : Nat}
    (uniform : ∀ block ∈ circuit.blocks, block.width = width)
    (permuted : schedule.Perm circuit.schedule) (respects : schedule.Respects (ofCircuit circuit)) :
    schedule.Pairwise fun first second =>
      second.2 < first.2 → first.1.commutes second.1 = .ok true := by
  have distinct : (schedule.map Prod.snd).Nodup := by
    rw [(permuted.map Prod.snd).nodup_iff]
    exact (List.pairwise_map.mpr (ascending_schedule circuit)).imp Nat.ne_of_lt
  have placed (index : Nat) (inside : index < schedule.length) :
      schedule.placeOf schedule[index].2 = index := by
    have found := distinct.idxOf_getElem index (by rwa [List.length_map])
    rwa [List.getElem_map] at found
  have found (index : Nat) (inside : index < schedule.length) :
      circuit.blocks[schedule[index].2]? = some schedule[index].1 :=
    mem_schedule_iff.mp (permuted.mem_iff.mp (List.getElem_mem inside))
  have sameWidth (index : Nat) (inside : index < schedule.length) :
      schedule[index].1.width = width :=
    uniform _ (List.mem_of_getElem? (found index inside))
  rw [List.pairwise_iff_getElem]
  intro place other inside otherInside order reversed
  rw [Block.commutes_of_width ((sameWidth place inside).trans (sameWidth other otherInside).symm),
    Except.ok.injEq]
  apply Bool.of_not_eq_false
  intro clashing
  -- The block that comes later in the schedule would have to come first.
  have dependent : circuit.DependsOn schedule[place].2 schedule[other].2 := by
    apply And.intro reversed
    refine ⟨_, _, found other otherInside, found place inside, ?_⟩
    rw [Block.productsCommute, PauliString.commutes_comm]
    exact clashing
  have early := respects_iff.mp respects _ _ dependent
  rw [placed place inside, placed other otherInside] at early
  omega

/-- A schedule that respects the dependency graph of a circuit is equivalent to the circuit.
Exchanges of adjacent blocks that commute lead from one to the other, and for all outcomes of
the measurements the evolution is the same. -/
theorem evolution_eq_of_respects {width : Nat}
    (uniform : ∀ block ∈ circuit.blocks, block.width = width)
    (permuted : schedule.Perm circuit.schedule)
    (respects : schedule.Respects (ofCircuit circuit)) :
    ReflTransGen Exchange schedule circuit.schedule ∧ ∀ outcomes : Nat → Outcome,
      Block.evolution width (schedule.map Prod.fst) (schedule.reports outcomes) =
        Block.evolution width circuit.blocks (circuit.schedule.reports outcomes) := by
  have exchanges : ReflTransGen Exchange schedule circuit.schedule :=
    exchanges_of_pairwise permuted (ascending_schedule circuit)
      (commuting_of_respects uniform permuted respects)
  have scheduledUniform : ∀ entry ∈ schedule, entry.1.width = width := by
    intro entry member
    apply uniform
    exact List.mem_of_getElem? (mem_schedule_iff.mp (permuted.mem_iff.mp member))
  have blocks : circuit.schedule.map Prod.fst = circuit.blocks :=
    List.zipIdx_map_fst 0 circuit.blocks
  apply And.intro exchanges
  intro outcomes
  calc Block.evolution width (schedule.map Prod.fst) (schedule.reports outcomes)
      = schedule.evolution width outcomes := evolution_eq schedule outcomes
    _ = circuit.schedule.evolution width outcomes :=
        evolution_eq_of_exchanges scheduledUniform exchanges outcomes
    _ = Block.evolution width circuit.blocks (circuit.schedule.reports outcomes) := by
        rw [← evolution_eq, blocks]

/-- The measurements go first. The last block depends on the first one both directly and
through the block between them. -/
theorem evolution_eq_of_respects_measurementsFirst :
    let circuit : Circuit := ⟨2, [.rotation [.Z, .I] .eighth, .measurement [.I, .X] false,
      .rotation [.X, .X] .quarter, .measurement [.Z, .Z] true, .rotation [.Y, .I] .eighth]⟩
    let schedule : Schedule := [(.measurement [.I, .X] false, 1), (.measurement [.Z, .Z] true, 3),
      (.rotation [.Z, .I] .eighth, 0), (.rotation [.X, .X] .quarter, 2),
      (.rotation [.Y, .I] .eighth, 4)]
    schedule.Respects (ofCircuit circuit) ∧ ReflTransGen Exchange schedule circuit.schedule ∧
      ∀ outcomes : Nat → Outcome,
        Block.evolution 2 (schedule.map Prod.fst) (schedule.reports outcomes) =
          Block.evolution 2 circuit.blocks (circuit.schedule.reports outcomes) := by
  intro circuit schedule
  have follows : ∀ later < 5, ∀ earlier < later, ∀ first ∈ circuit.blocks[earlier]?,
      ∀ second ∈ circuit.blocks[later]?, first.productsCommute second = false →
        schedule.placeOf earlier < schedule.placeOf later := by decide
  have respects : schedule.Respects (ofCircuit circuit) := by
    apply respects_iff.mpr
    intro later earlier dependent
    have inside : later < 5 := (dependsOn_zipIdx.mpr dependent).lt_length
    rcases dependent with ⟨order, first, second, foundFirst, foundSecond, clashing⟩
    exact follows later inside earlier order first foundFirst second foundSecond clashing
  have uniform : ∀ block ∈ circuit.blocks, block.width = 2 := by decide
  have permuted : schedule.Perm circuit.schedule := by decide
  exact ⟨respects, evolution_eq_of_respects uniform permuted respects⟩

end Schedule

end LatticeSurgery
