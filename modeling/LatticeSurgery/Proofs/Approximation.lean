import LatticeSurgery.Proofs.Angle.Residue
import LatticeSurgery.Circuit.Error
import Mathlib.Data.Finset.Card

namespace LatticeSurgery

open Result (bind_eq_ok ok_bind)

/-! # Tables of approximations

A table that is filled by insertions, some of which may fail, is seen through its lookups. They
depend on the insertions alone: an angle has the gates of the latest one that succeeded with an
angle of its class modulo 2. -/

/-- A change to a table, by gates or by the text that spells them. -/
inductive Insertion where
  | ofGates (angle : Angle) (gates : GateSequence)
  | ofText (angle : Angle) (source : String)

namespace Insertion

def angle : Insertion → Angle
  | ofGates angle _ => angle
  | ofText angle _ => angle

/-- The gates to be entered. A text with a character that is no gate has none. -/
def gates? : Insertion → Option GateSequence
  | ofGates _ gates => some gates
  | ofText _ source => (GateSequence.parse source).toOption

def perform : Insertion → Update CircuitError ApproximationTable Unit
  | ofGates angle gates => ApproximationTable.enter angle gates
  | ofText angle source => ApproximationTable.enterText angle source

/-- The gates of the latest insertion that succeeds with an angle of the same class. -/
def latest (calls : List Insertion) (angle : Angle) : Option GateSequence :=
  calls.reverse.findSome? fun call => if call.angle.Congruent angle then call.gates? else none

/-- The classes modulo 2 for which an insertion succeeds. -/
def classes (calls : List Insertion) : Finset ℚ :=
  ((calls.filter fun call => call.gates?.isSome).map fun call => call.angle.residue).toFinset

/-- The table after some calls, of which those that fail leave behind what they had reached. -/
def filled (calls : List Insertion) : ApproximationTable :=
  calls.foldl (fun table call => call.perform.leaves table) .empty

variable {call : Insertion} {gates : GateSequence}

theorem latest_concat (calls : List Insertion) (call : Insertion) (angle : Angle) :
    latest (calls ++ [call]) angle =
      if call.angle.Congruent angle then call.gates?.or (latest calls angle)
      else latest calls angle := by
  rw [latest, List.reverse_concat, List.findSome?_cons, latest]
  by_cases congruent : call.angle.Congruent angle
  · simp only [if_pos congruent]
    cases call.gates? <;> rfl
  · simp only [if_neg congruent]

theorem classes_concat_of_some (calls : List Insertion) (found : call.gates? = some gates) :
    classes (calls ++ [call]) = insert call.angle.residue (classes calls) := by
  simp [classes, found]

theorem classes_concat_of_none (calls : List Insertion) (missing : call.gates? = none) :
    classes (calls ++ [call]) = classes calls := by
  simp [classes, missing]

theorem filled_concat (calls : List Insertion) (call : Insertion) :
    filled (calls ++ [call]) = call.perform.leaves (filled calls) := by
  rw [filled, List.foldl_concat, filled]

end Insertion

namespace ApproximationTable

variable {table after : ApproximationTable} {angle other : Angle} {gates : GateSequence}

theorem exists_insert (table : ApproximationTable) (positive : 0 < angle.denom)
    (gates : GateSequence) : ∃ after, table.insert angle gates = .ok after := by
  rcases Angle.exists_normalized positive with ⟨key, keyEq⟩
  rw [insert, keyEq]
  exact ⟨_, rfl⟩

theorem run_enter (inserted : table.insert angle gates = .ok after) :
    (enter angle gates).run table = .ok () after := by
  simp only [enter, EStateM.run_bind, EStateM.run_get, inserted]
  rfl

/-- An insertion is seen by the angles of its class. -/
theorem lookup_insert (lowest : angle.Lowest) (otherLowest : other.Lowest)
    (inserted : table.insert angle gates = .ok after) :
    after.lookup other =
      if angle.Congruent other then .ok (some gates) else table.lookup other := by
  rw [insert, bind_eq_ok] at inserted
  rcases inserted with ⟨key, keyEq, afterEq⟩
  cases afterEq
  rcases Angle.exists_normalized otherLowest.denom_pos with ⟨otherKey, otherKeyEq⟩
  have sameKeys := lowest.same_normalized_iff otherLowest keyEq otherKeyEq
  rw [lookup, lookup, otherKeyEq, ok_bind, ok_bind]
  by_cases congruent : angle.Congruent other
  · rw [if_pos congruent, List.find?_cons_of_pos (by simpa using sameKeys.mpr congruent)]
    rfl
  · have different : ¬ key.Same otherKey := fun same => congruent (sameKeys.mp same)
    rw [if_neg congruent, List.find?_cons_of_neg (by simpa using different), List.find?_filter]
    -- The entries that were taken out are of another class.
    congr 3
    funext entry
    by_cases same : entry.1.Same otherKey
    · have apart : ¬ entry.1.Same key := fun first => different (first.symm.trans same)
      simp [same, apart]
    · simp [same]

/-- The keys of a table are the reduced angles of some classes, each of which has one key. -/
structure Keyed (table : ApproximationTable) (classes : Finset ℚ) : Prop where
  reduced : ∀ entry ∈ table.entries, ∃ angle : Angle, angle.Lowest ∧ angle.normalized = .ok entry.1
  distinct : (table.entries.map fun entry => entry.1.residue).Nodup
  classes_eq : (table.entries.map fun entry => entry.1.residue).toFinset = classes

namespace Keyed

variable {classes : Finset ℚ}

theorem empty : Keyed .empty ∅ where
  reduced := List.forall_mem_nil _
  distinct := List.nodup_nil
  classes_eq := rfl

theorem size_eq (keyed : Keyed table classes) : table.size = classes.card := by
  rw [← keyed.classes_eq, List.toFinset_card_of_nodup keyed.distinct, List.length_map, size]

theorem insert (keyed : Keyed table classes) (lowest : angle.Lowest)
    (inserted : table.insert angle gates = .ok after) :
    Keyed after (Insert.insert angle.residue classes) := by
  rw [ApproximationTable.insert, bind_eq_ok] at inserted
  rcases inserted with ⟨key, keyEq, afterEq⟩
  cases afterEq
  have sameKey (entry) (member : entry ∈ table.entries) :
      entry.1.Same key ↔ entry.1.residue = angle.residue := by
    rcases keyed.reduced entry member with ⟨source, sourceLowest, sourceEq⟩
    rw [sourceLowest.same_normalized_iff lowest sourceEq keyEq, Angle.congruent_iff_residue_eq,
      Angle.residue_of_normalized sourceEq]
  have keyResidue := Angle.residue_of_normalized keyEq
  constructor
  · intro entry member
    rw [List.mem_cons, List.mem_filter] at member
    rcases member with rfl | kept
    · exact ⟨angle, lowest, keyEq⟩
    · exact keyed.reduced entry kept.1
  · rw [List.map_cons, List.nodup_cons, keyResidue, List.mem_map]
    refine ⟨?_, (List.filter_sublist.map _).nodup keyed.distinct⟩
    rintro ⟨entry, member, residueEq⟩
    rw [List.mem_filter] at member
    have same := (sameKey entry member.1).mpr residueEq
    simp [same] at member
  · ext found
    rw [← keyed.classes_eq, List.map_cons, List.toFinset_cons, keyResidue, Finset.mem_insert,
      Finset.mem_insert, List.mem_toFinset, List.mem_toFinset, List.mem_map, List.mem_map]
    constructor
    · rintro (isNew | ⟨entry, member, residueEq⟩)
      · exact .inl isNew
      · exact .inr ⟨entry, (List.mem_filter.mp member).1, residueEq⟩
    · rintro (isNew | ⟨entry, member, residueEq⟩)
      · exact .inl isNew
      · by_cases same : entry.1.Same key
        · exact .inl (residueEq.symm.trans ((sameKey entry member).mp same))
        · exact .inr ⟨entry, List.mem_filter.mpr ⟨member, by simp [same]⟩, residueEq⟩

end Keyed

end ApproximationTable

namespace Insertion

variable {call : Insertion} {gates : GateSequence} {table : ApproximationTable}

theorem run_perform_of_some (found : call.gates? = some gates) (positive : 0 < call.angle.denom)
    (table : ApproximationTable) :
    ∃ after, table.insert call.angle gates = .ok after ∧
      call.perform.run table = .ok () after := by
  rcases table.exists_insert positive gates with ⟨after, inserted⟩
  refine ⟨after, inserted, ?_⟩
  cases call with
  | ofGates angle given =>
      cases found
      exact ApproximationTable.run_enter inserted
  | ofText angle source =>
      rw [gates?] at found
      cases parsed : GateSequence.parse source with
      | error character =>
          rw [parsed] at found
          cases found
      | ok read =>
          rw [parsed] at found
          cases found
          rw [perform, ApproximationTable.enterText, GateSequence.ofText, parsed]
          exact ApproximationTable.run_enter inserted

theorem run_perform_of_none (missing : call.gates? = none) (table : ApproximationTable) :
    ∃ error, call.perform.run table = .error (.refused error) table := by
  cases call with
  | ofGates angle given => cases missing
  | ofText angle source =>
      rw [gates?] at missing
      cases parsed : GateSequence.parse source with
      | error character =>
          refine ⟨.invalidGate character, ?_⟩
          rw [perform, ApproximationTable.enterText, GateSequence.ofText, parsed]
          rfl
      | ok read =>
          rw [parsed] at missing
          cases missing

/-- What is left of a call that fails is the table as it was. -/
theorem eq_of_run_perform_error {failure : Failure CircuitError} {after : ApproximationTable}
    (run : call.perform.run table = .error failure after) : after = table := by
  have entering (angle : Angle) (gates : GateSequence)
      (run : (ApproximationTable.enter angle gates).run table = .error failure after) :
      after = table := by
    simp only [ApproximationTable.enter, EStateM.run_bind, EStateM.run_get] at run
    cases inserted : table.insert angle gates with
    | ok next =>
        rw [inserted] at run
        cases run
    | error cause =>
        rw [inserted] at run
        cases run
        rfl
  cases call with
  | ofGates angle gates => exact entering angle gates run
  | ofText angle source =>
      rw [perform, ApproximationTable.enterText] at run
      cases parsed : GateSequence.ofText source with
      | ok gates =>
          rw [parsed] at run
          exact entering angle gates run
      | error cause =>
          rw [parsed] at run
          cases run
          rfl

/-- What a table answers, and how many entries it has, after some calls. -/
structure Reflects (table : ApproximationTable) (calls : List Insertion) : Prop where
  keyed : table.Keyed (classes calls)
  lookup_eq : ∀ angle : Angle, angle.Lowest → table.lookup angle = .ok (latest calls angle)

theorem Reflects.perform {calls : List Insertion} (reflects : Reflects table calls)
    (lowest : call.angle.Lowest) : Reflects (call.perform.leaves table) (calls ++ [call]) := by
  cases found : call.gates? with
  | none =>
      rcases run_perform_of_none found table with ⟨error, run⟩
      rw [Update.leaves_of_error run]
      constructor
      · rw [classes_concat_of_none calls found]
        exact reflects.keyed
      · intro angle angleLowest
        rw [reflects.lookup_eq angle angleLowest, latest_concat, found, Option.none_or, ite_self]
  | some gates =>
      rcases run_perform_of_some found lowest.denom_pos table with ⟨after, inserted, run⟩
      rw [Update.leaves_of_ok run]
      constructor
      · rw [classes_concat_of_some calls found]
        exact reflects.keyed.insert lowest inserted
      · intro angle angleLowest
        rw [ApproximationTable.lookup_insert lowest angleLowest inserted, latest_concat, found,
          Option.some_or, reflects.lookup_eq angle angleLowest]
        split <;> rfl

theorem reflects_filled {calls : List Insertion} (lowest : ∀ call ∈ calls, call.angle.Lowest) :
    Reflects (filled calls) calls := by
  induction calls using List.reverseRecOn with
  | nil =>
      refine ⟨.empty, ?_⟩
      intro angle angleLowest
      rcases Angle.exists_normalized angleLowest.denom_pos with ⟨key, keyEq⟩
      rw [filled, List.foldl_nil, ApproximationTable.lookup, keyEq]
      rfl
  | append_singleton calls call induction =>
      rw [filled_concat]
      apply (induction _).perform
      · exact lowest call (List.mem_append_right _ List.mem_cons_self)
      · exact fun earlier member => lowest earlier (List.mem_append_left _ member)

/-- Reduction picks one angle of each class modulo 2. The lookups of a table respect the classes,
however the table was filled, and a call that fails changes nothing. -/
theorem lookup_filled_modulo_two (calls : List Insertion)
    (lowest : ∀ call ∈ calls, call.angle.Lowest) (angle other : Angle)
    (angleLowest : angle.Lowest) (otherLowest : other.Lowest) :
    (∃ reduced otherReduced : Angle,
      angle.normalized = .ok reduced ∧ other.normalized = .ok otherReduced ∧
      angle.Congruent reduced ∧ reduced.Lowest ∧
      (angle.denom ≤ 2 ^ 62 → 0 ≤ reduced.value) ∧ -2 < reduced.value ∧ reduced.value < 2 ∧
      (reduced.Same otherReduced ↔ angle.Congruent other)) ∧
    (filled calls).lookup angle = .ok (latest calls angle) ∧
    (filled calls).size = (classes calls).card ∧
    ∀ call : Insertion,
      (call.angle.Lowest →
        ((∃ after, call.perform.run (filled calls) = .ok () after) ↔ call.gates?.isSome)) ∧
      ∀ failure after, call.perform.run (filled calls) = .error failure after →
        after = filled calls := by
  have reflects := reflects_filled lowest
  refine ⟨?_, reflects.lookup_eq angle angleLowest, reflects.keyed.size_eq, ?_⟩
  · rcases Angle.exists_normalized angleLowest.denom_pos with ⟨reduced, reducedEq⟩
    rcases Angle.exists_normalized otherLowest.denom_pos with ⟨otherReduced, otherEq⟩
    have bounds := Angle.abs_value_of_normalized angleLowest.denom_pos reducedEq
    refine ⟨reduced, otherReduced, reducedEq, otherEq, Angle.congruent_of_normalized reducedEq,
      Angle.lowest_of_make angle.denom_ne_zero reducedEq, ?_, bounds.1, bounds.2,
      angleLowest.same_normalized_iff otherLowest reducedEq otherEq⟩
    intro small
    have twice : 2 * angle.denom ≤ Word.limit64 := by
      rw [Word.limit64]
      omega
    rw [Angle.value_of_normalized_small angleLowest.denom_pos twice reducedEq]
    exact angle.residue_bounds.1
  · intro call
    refine ⟨fun callLowest => ?_, fun failure after => eq_of_run_perform_error⟩
    cases found : call.gates? with
    | none =>
        rcases run_perform_of_none found (filled calls) with ⟨error, run⟩
        simp [run]
    | some gates =>
        rcases run_perform_of_some found callLowest.denom_pos (filled calls) with ⟨after, _, run⟩
        simp [run]

/-- Of the first angle there is no representative in `[0, 2)`, since twice its denominator does not
fit. The last call fails. -/
theorem lookup_filled_thirds :
    let belowTwo : Angle := ⟨-1, 4611686018427387905, by decide, by decide, by decide⟩
    let oneThird : Angle := ⟨1, 3, by decide, by decide, by decide⟩
    let minusFiveThirds : Angle := ⟨-5, 3, by decide, by decide, by decide⟩
    let calls : List Insertion := [.ofText oneThird "HT", .ofGates belowTwo [.T],
      .ofText minusFiveThirds "S", .ofText oneThird "HQ"]
    (filled calls).lookup oneThird = .ok (some [.S]) ∧
      (filled calls).lookup belowTwo = .ok (some [.T]) ∧ (filled calls).size = 2 := by
  intro belowTwo oneThird minusFiveThirds calls
  have lowest : ∀ call ∈ calls, call.angle.Lowest := by decide
  have thirds := lookup_filled_modulo_two calls lowest oneThird minusFiveThirds (by decide)
    (by decide)
  have limit := lookup_filled_modulo_two calls lowest belowTwo oneThird (by decide) (by decide)
  rw [thirds.2.1, limit.2.1, limit.2.2.1]
  decide +kernel

end Insertion

end LatticeSurgery
