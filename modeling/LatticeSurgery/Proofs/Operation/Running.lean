import LatticeSurgery.Proofs.Operation.References
import Mathlib.Logic.Relation

namespace LatticeSurgery.OperationTable

open Result

/-! # Operations that run

As long as conditions refer to earlier operations, the question whether an operation
runs has an answer, and the answer obeys the rule of its condition. -/

/-- Whether an operation runs, for tables in which that is decided. -/
def active (table : OperationTable) (index : Nat) : Bool :=
  (table.runsWithin (table.size + 1) index).toOption.getD false

private theorem allM_eq_ok {test : Nat → Except Fault Bool} {answer : Nat → Bool} {reads : List Nat}
    (decided : ∀ read ∈ reads, test read = .ok (answer read)) :
    reads.allM test = .ok (reads.all answer) := by
  induction reads with
  | nil => rfl
  | cons read rest induction =>
      have restDecided := induction fun other member =>
        decided other (List.mem_cons_of_mem _ member)
      rw [List.allM, decided read List.mem_cons_self, List.all_cons]
      cases answer read with
      | true => simpa using restDecided
      | false => rfl

variable {table : OperationTable}

/-- The rule of a condition, given which earlier operations run. -/
def meets (table : OperationTable) (condition : Option Condition) : Bool :=
  condition.all fun given => given.reads.all table.active && given.holds table.outcomeAt

private theorem runsWithin_succ {fuel index : Nat} {operation : Operation}
    (found : table.operations[index]? = some operation)
    (decided : ∀ read ∈ operation.reads, table.runsWithin fuel read = .ok (table.active read)) :
    table.runsWithin (fuel + 1) index = .ok (table.meets operation.condition) := by
  rw [runsWithin, found]
  cases given : operation.condition with
  | none => simp [given, meets]
  | some condition =>
      rw [Operation.reads, given] at decided
      simp only [given, allM_eq_ok decided, ok_bind, meets, Option.all_some]
      cases condition.reads.all table.active <;> simp

private theorem runsWithin_eq_active (back : ReadsBack table.operations) (index : Nat) :
    ∀ fuel, index < fuel → index < table.size →
      table.runsWithin fuel index = .ok (table.active index) := by
  induction index using Nat.strongRecOn with
  | ind index induction =>
      intro fuel enough inside
      have found := List.getElem?_eq_getElem inside
      have decided : ∀ fuel, index ≤ fuel → ∀ read ∈ table.operations[index].reads,
          table.runsWithin fuel read = .ok (table.active read) := by
        intro fuel enough read member
        have before := back index _ found read member
        exact induction read before fuel (by omega) (by omega)
      rcases Nat.exists_eq_succ_of_ne_zero (Nat.ne_zero_of_lt enough) with ⟨fuel, rfl⟩
      rw [active, runsWithin_succ found (decided fuel (by omega)),
        runsWithin_succ found (decided table.size (Nat.le_of_lt inside))]
      rfl

theorem runs_eq_ok (back : ReadsBack table.operations) {index : Nat}
    (inside : index < table.size) : table.runs index = .ok (table.active index) := by
  have found := List.getElem?_eq_getElem inside
  rw [runs, operationAt, found]
  simp [runsWithin_eq_active back index (table.size + 1) (by omega) inside]

/-- An operation runs when the operations that it reads run and its condition holds. -/
theorem runsWithin_eq_ok (back : ReadsBack table.operations) {index : Nat}
    {operation : Operation} (found : table.operations[index]? = some operation) :
    table.runsWithin (table.size + 1) index = .ok (table.meets operation.condition) := by
  have inside : index < table.size := (List.getElem?_eq_some_iff.mp found).1
  refine runsWithin_succ found fun read member => ?_
  have before := back index operation found read member
  exact runsWithin_eq_active back read table.size (by omega) (by omega)

theorem active_eq (back : ReadsBack table.operations) {index : Nat} {operation : Operation}
    (found : table.operations[index]? = some operation) :
    table.active index = table.meets operation.condition := by
  rw [active, runsWithin_eq_ok back found]
  rfl

theorem runs_eq_active (earlier : ReadsEarlier table.operations) {index : Nat}
    (inside : index < table.size) : table.runs index = .ok (table.active index) :=
  runs_eq_ok earlier.readsBack inside

theorem runsWithin_eq_meets (earlier : ReadsEarlier table.operations) {index : Nat}
    {operation : Operation} (found : table.operations[index]? = some operation) :
    table.runsWithin (table.size + 1) index = .ok (table.meets operation.condition) :=
  runsWithin_eq_ok earlier.readsBack found

theorem active_eq_meets (earlier : ReadsEarlier table.operations) {index : Nat}
    {operation : Operation} (found : table.operations[index]? = some operation) :
    table.active index = table.meets operation.condition :=
  active_eq earlier.readsBack found

/-! ## Recording

Recording outcomes changes nothing but outcomes. -/

theorem record_eq_ok {index : Nat} {outcome : Outcome} {next : OperationTable} :
    table.record index outcome = .ok next ↔
      ∃ operation, table.operations[index]? = some operation ∧
        operation.kind.isMeasurement = true ∧ operation.outcome = none ∧
        next = { table with operations :=
          table.operations.set index { operation with outcome := some outcome } } := by
  rw [record, Update.result_eq_ok]
  cases found : table.operations[index]? with
  | none => simp [setOutcome, operationAt, found, Result.refuse]
  | some operation =>
      cases isMeasurement : operation.kind.isMeasurement with
      | false => simp [setOutcome, operationAt, found, isMeasurement]
      | true =>
          cases known : operation.outcome with
          | none =>
              simp only [setOutcome, operationAt, found, EStateM.run_bind, EStateM.run_get,
                Update.lift_ok, EStateM.run_pure, isMeasurement, known, Bool.not_true,
                Bool.false_eq_true, if_false, Option.isSome_none, EStateM.run_set,
                EStateM.Result.ok.injEq, true_and, Option.some.injEq]
              constructor
              · intro made
                exact ⟨operation, rfl, isMeasurement, known, made.symm⟩
              · rintro ⟨_, rfl, _, _, same⟩
                exact same.symm
          | some before => simp [setOutcome, operationAt, found, isMeasurement, known]

/-- The second table is reached from the first one by recording outcomes. -/
def Recorded : OperationTable → OperationTable → Prop :=
  Relation.ReflTransGen fun before after => ∃ index outcome, before.record index outcome = .ok after

/-- What an operation does and when, without its outcome. -/
def plan (operation : Operation) : OperationKind × Option Condition :=
  (operation.kind, operation.condition)

theorem reads_eq_of_plan_eq {first second : Operation} (same : plan first = plan second) :
    first.reads = second.reads := by
  rw [plan, plan, Prod.mk.injEq] at same
  rw [Operation.reads, Operation.reads, same.2]

namespace Recorded

variable {recorded : OperationTable}

theorem qubits_eq (run : Recorded table recorded) : recorded.qubits = table.qubits := by
  induction run with
  | refl => rfl
  | tail _ step induction =>
      rcases step with ⟨index, outcome, step⟩
      rcases record_eq_ok.mp step with ⟨operation, _, _, _, rfl⟩
      exact induction

theorem map_plan_eq (run : Recorded table recorded) :
    recorded.operations.map plan = table.operations.map plan := by
  induction run with
  | refl => rfl
  | tail _ step induction =>
      rcases step with ⟨index, outcome, step⟩
      rcases record_eq_ok.mp step with ⟨operation, found, _, _, rfl⟩
      have same : plan { operation with outcome := some outcome } = plan operation := rfl
      rw [List.map_set, same, ← List.map_set]
      rcases List.getElem?_eq_some_iff.mp found with ⟨inside, rfl⟩
      rw [List.set_getElem_self, induction]

theorem size_eq (run : Recorded table recorded) : recorded.size = table.size := by
  have lengths := congrArg List.length run.map_plan_eq
  rwa [List.length_map, List.length_map] at lengths

theorem magicCount_eq (run : Recorded table recorded) :
    recorded.magicCount = table.magicCount := by
  have requests (operations : List Operation) :
      operations.countP (fun operation => operation.kind.isMagicRequest) =
        (operations.map plan).countP fun entry => entry.1.isMagicRequest := by
    rw [List.countP_map]
    rfl
  rw [magicCount, magicCount, requests, requests, run.map_plan_eq]

theorem getElem? (run : Recorded table recorded) {index : Nat} {operation : Operation}
    (found : table.operations[index]? = some operation) :
    recorded.operations[index]? =
      some ⟨operation.kind, operation.condition, recorded.outcomeAt index⟩ := by
  have plans : (recorded.operations.map plan)[index]? = some (plan operation) := by
    rw [run.map_plan_eq, List.getElem?_map, found, Option.map_some]
  rw [List.getElem?_map, Option.map_eq_some_iff] at plans
  rcases plans with ⟨after, foundAfter, same⟩
  rw [plan, plan, Prod.mk.injEq] at same
  rw [outcomeAt, foundAfter, ← same.1, ← same.2]
  rfl

/-- What is found after recording was there before, up to its outcome. -/
theorem exists_getElem? (run : Recorded table recorded) {index : Nat} {operation : Operation}
    (found : recorded.operations[index]? = some operation) :
    ∃ original, table.operations[index]? = some original ∧ plan original = plan operation := by
  have plans : (table.operations.map plan)[index]? = some (plan operation) := by
    rw [← run.map_plan_eq, List.getElem?_map, found, Option.map_some]
  rw [List.getElem?_map, Option.map_eq_some_iff] at plans
  exact plans

theorem readsEarlier (run : Recorded table recorded) (earlier : ReadsEarlier table.operations) :
    ReadsEarlier recorded.operations := by
  intro index operation found read member
  rcases run.exists_getElem? found with ⟨original, originalFound, same⟩
  rw [reads_eq_of_plan_eq same.symm] at member
  have before := earlier index original originalFound read member
  rcases before.2 with ⟨source, sourceFound, isMeasurement⟩
  exact ⟨before.1, _, run.getElem? sourceFound, isMeasurement⟩

theorem readsBack (run : Recorded table recorded) (back : ReadsBack table.operations) :
    ReadsBack recorded.operations := by
  intro index operation found read member
  rcases run.exists_getElem? found with ⟨original, originalFound, same⟩
  rw [reads_eq_of_plan_eq same.symm] at member
  exact back index original originalFound read member

end Recorded

/-- Record outcomes one after the other. -/
def recordAll (table : OperationTable) (outcomes : List (Nat × Outcome)) :
    Result TableError OperationTable :=
  outcomes.foldlM (fun before (index, outcome) => before.record index outcome) table

theorem recorded_of_recordAll {recorded : OperationTable} {outcomes : List (Nat × Outcome)}
    (run : table.recordAll outcomes = .ok recorded) : Recorded table recorded := by
  refine of_foldlM (Recorded table) ?_ .refl run
  intro before after entry _ reached step
  exact reached.tail ⟨entry.1, entry.2, step⟩

end LatticeSurgery.OperationTable
