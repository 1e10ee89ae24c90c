import LatticeSurgery.Proofs.Operation.Running

namespace LatticeSurgery

/-! # Outcomes that become known

Outcomes are reported one by one, and a report that is refused changes nothing. A condition
fails only when all outcomes that it reads are known, and known outcomes stay as they are. So
an operation that is ruled out once is ruled out for good, together with every operation that
reads it. -/

/-- A condition that holds with more outcomes known held with fewer. -/
theorem Condition.holds_of_extends {before after : Nat → Option Outcome}
    (kept : ∀ index outcome, before index = some outcome → after index = some outcome)
    {condition : Condition} (holds : condition.holds after = true) :
    condition.holds before = true := by
  cases condition with
  | quarterCorrection merge ancilla invert =>
      cases first : before merge with
      | none => simp [Condition.holds, first]
      | some merged =>
          cases second : before ancilla with
          | none => simp [Condition.holds, first, second]
          | some measured =>
              simpa [Condition.holds, first, second, kept merge merged first,
                kept ancilla measured second] using holds
  | eighthFirstCorrection merge invert =>
      cases first : before merge with
      | none => simp [Condition.holds, first]
      | some merged => simpa [Condition.holds, first, kept merge merged first] using holds
  | eighthSecondCorrection magic =>
      cases first : before magic with
      | none => simp [Condition.holds, first]
      | some measured => simpa [Condition.holds, first, kept magic measured first] using holds

namespace OperationTable

variable {table recorded : OperationTable}

/-! ## Operations that read each other -/

/-- The condition of the first operation reads the outcome of the second. -/
def Reads (table : OperationTable) (reader read : Nat) : Prop :=
  ∃ operation, table.operations[reader]? = some operation ∧ read ∈ operation.reads

/-- An operation runs only if the operations that it reads do. -/
theorem active_of_reads (back : ReadsBack table.operations) {reader read : Nat}
    (reads : table.Reads reader read) (runs : table.active reader = true) :
    table.active read = true := by
  rcases reads with ⟨operation, found, member⟩
  rw [active_eq back found] at runs
  cases given : operation.condition with
  | none =>
      rw [Operation.reads, given] at member
      cases member
  | some condition =>
      rw [Operation.reads, given] at member
      rw [meets, given, Option.all_some, Bool.and_eq_true, List.all_eq_true] at runs
      exact runs.1 read member

theorem active_of_chain (back : ReadsBack table.operations) {reader read : Nat}
    (chain : Relation.TransGen table.Reads reader read) (runs : table.active reader = true) :
    table.active read = true := by
  induction chain with
  | single reads => exact active_of_reads back reads runs
  | tail _ reads induction => exact active_of_reads back reads induction

theorem lt_size_of_chain {reader read : Nat}
    (chain : Relation.TransGen table.Reads reader read) : reader < table.size := by
  rcases Relation.TransGen.head'_iff.mp chain with ⟨_, ⟨operation, found, _⟩, _⟩
  exact (List.getElem?_eq_some_iff.mp found).1

/-! ## Recorded tables -/

namespace Recorded

/-- An outcome that is recorded stays recorded. -/
theorem outcomeAt_eq (run : Recorded table recorded) {index : Nat} {outcome : Outcome}
    (known : table.outcomeAt index = some outcome) :
    recorded.outcomeAt index = some outcome := by
  induction run with
  | refl => exact known
  | @tail before _ _ step induction =>
      rcases step with ⟨position, reported, step⟩
      rcases record_eq_ok.mp step with ⟨operation, found, _, unknown, rfl⟩
      have elsewhere : position ≠ index := by
        rintro rfl
        rw [outcomeAt, found] at induction
        cases unknown.symm.trans induction
      rw [outcomeAt, List.getElem?_set_ne elsewhere]
      exact induction

/-- Outcomes are recorded for measurements only. -/
theorem measuredAt (run : Recorded table recorded) {index : Nat}
    (unknown : table.outcomeAt index = none) (known : recorded.outcomeAt index ≠ none) :
    MeasuredAt table.operations index := by
  induction run with
  | refl => exact absurd unknown known
  | @tail before _ earlier step induction =>
      rcases step with ⟨position, reported, step⟩
      rcases record_eq_ok.mp step with ⟨operation, found, isMeasurement, _, rfl⟩
      by_cases here : position = index
      · subst here
        rcases Recorded.exists_getElem? earlier found with ⟨original, originalFound, same⟩
        rw [plan, plan, Prod.mk.injEq] at same
        exact ⟨original, originalFound, by rw [same.1, isMeasurement]⟩
      · rw [outcomeAt, List.getElem?_set_ne here] at known
        exact induction known

/-- Operations that run with more outcomes known ran with fewer. -/
theorem active_of_active (run : Recorded table recorded) (back : ReadsBack table.operations)
    (index : Nat) (inside : index < table.size) (runs : recorded.active index = true) :
    table.active index = true := by
  induction index using Nat.strongRecOn with
  | ind index induction =>
      have found := List.getElem?_eq_getElem inside
      rw [active_eq (run.readsBack back) (run.getElem? found)] at runs
      rw [active_eq back found]
      cases given : table.operations[index].condition with
      | none => rfl
      | some condition =>
          simp only [meets, given, Option.all_some, Bool.and_eq_true, List.all_eq_true] at runs ⊢
          constructor
          · intro read member
            have before : read < index := by
              apply back index _ found read
              rw [Operation.reads, given]
              exact member
            exact induction read before (by omega) (runs.1 read member)
          · exact Condition.holds_of_extends (fun _ _ => run.outcomeAt_eq) runs.2

end Recorded

/-! ## Reports

A report is a call that records an outcome. What it leaves behind counts, whether or not it
is refused. -/

/-- The table after the outcome of an operation was reported. -/
def report (table : OperationTable) (call : Nat × Outcome) : OperationTable :=
  (setOutcome call.1 call.2).leaves table

def reports (table : OperationTable) (calls : List (Nat × Outcome)) : OperationTable :=
  calls.foldl report table

/-- A report that fails leaves the table as it was. -/
theorem eq_of_setOutcome_error {index : Nat} {outcome : Outcome}
    {failure : Failure TableError} {after : OperationTable}
    (run : (setOutcome index outcome).run table = .error failure after) : after = table := by
  cases found : table.operations[index]? with
  | none =>
      simp only [setOutcome, operationAt, found, Result.refuse, EStateM.run_bind, EStateM.run_get,
        Update.run_lift_error, EStateM.Result.error.injEq] at run
      exact run.2.symm
  | some operation =>
      cases isMeasurement : operation.kind.isMeasurement with
      | false =>
          simp only [setOutcome, operationAt, found, EStateM.run_bind, EStateM.run_get,
            Update.lift_ok, EStateM.run_pure, isMeasurement, Bool.not_false, if_true,
            Update.run_refuse, EStateM.Result.error.injEq] at run
          exact run.2.symm
      | true =>
          cases known : operation.outcome with
          | none =>
              simp [setOutcome, operationAt, found, isMeasurement, known] at run
          | some before =>
              simp only [setOutcome, operationAt, found, EStateM.run_bind, EStateM.run_get,
                Update.lift_ok, EStateM.run_pure, isMeasurement, known, Bool.not_true,
                Bool.false_eq_true, if_false, Option.isSome_some, if_true, Update.run_refuse,
                EStateM.Result.error.injEq] at run
              exact run.2.symm

theorem recorded_report (call : Nat × Outcome) : Recorded table (table.report call) := by
  cases run : (setOutcome call.1 call.2).run table with
  | ok value after =>
      rw [report, Update.leaves_of_ok run]
      exact Relation.ReflTransGen.single ⟨call.1, call.2, Update.result_eq_ok.mpr run⟩
  | error failure after =>
      rw [report, Update.leaves_of_error run, eq_of_setOutcome_error run]
      exact .refl

theorem recorded_reports (calls : List (Nat × Outcome)) :
    Recorded table (table.reports calls) := by
  induction calls generalizing table with
  | nil => exact .refl
  | cons call rest induction => exact (recorded_report call).trans induction

theorem reports_append (earlier later : List (Nat × Outcome)) :
    table.reports (earlier ++ later) = (table.reports earlier).reports later :=
  List.foldl_append

/-- The outcome of a measurement is taken down when it is reported for the first time. -/
theorem outcomeAt_report {index : Nat} (measured : MeasuredAt table.operations index)
    (unknown : table.outcomeAt index = none) (outcome : Outcome) :
    (table.report (index, outcome)).outcomeAt index = some outcome := by
  rcases measured with ⟨operation, found, isMeasurement⟩
  rw [outcomeAt, found] at unknown
  have taken : table.record index outcome = .ok { table with
      operations := table.operations.set index { operation with outcome := some outcome } } :=
    record_eq_ok.mpr ⟨operation, found, isMeasurement, unknown, rfl⟩
  rw [report, Update.leaves_of_ok (Update.result_eq_ok.mp taken), outcomeAt,
    List.getElem?_set_self (List.getElem?_eq_some_iff.mp found).1]
  rfl

/-- What can happen to a table once outcomes are reported: outcomes of measurements are
added, and operations are ruled out. -/
structure Narrows (before after : OperationTable) : Prop where
  qubits : after.qubits = before.qubits
  plans : after.operations.map plan = before.operations.map plan
  kept : ∀ index outcome, before.outcomeAt index = some outcome →
    after.outcomeAt index = some outcome
  measured : ∀ index, before.outcomeAt index = none → after.outcomeAt index ≠ none →
    MeasuredAt before.operations index
  ruledOut : ∀ index, before.runs index = .ok false → after.runs index = .ok false ∧
    ∀ other, Relation.TransGen before.Reads other index → after.runs other = .ok false

theorem lt_size_of_runs {index : Nat} {answer : Bool} (runs : table.runs index = .ok answer) :
    index < table.size := by
  cases found : table.operations[index]? with
  | none => simp [OperationTable.runs, operationAt, found, Result.refuse] at runs
  | some operation => exact (List.getElem?_eq_some_iff.mp found).1

theorem Recorded.narrows (run : Recorded table recorded) (back : ReadsBack table.operations) :
    table.Narrows recorded where
  qubits := run.qubits_eq
  plans := run.map_plan_eq
  kept _ _ := run.outcomeAt_eq
  measured _ := run.measuredAt
  ruledOut index stopped := by
    have inside := lt_size_of_runs stopped
    rw [runs_eq_ok back inside, Except.ok.injEq] at stopped
    have inactive (other : Nat) (here : other < table.size)
        (runs : table.active other = true → table.active index = true) :
        recorded.runs other = .ok false := by
      rw [runs_eq_ok (run.readsBack back) (by rw [run.size_eq]; exact here), Except.ok.injEq,
        ← Bool.not_eq_true]
      intro still
      have active := runs (run.active_of_active back other here still)
      rw [stopped] at active
      cases active
    constructor
    · exact inactive index inside id
    · intro other chain
      exact inactive other (lt_size_of_chain chain) (active_of_chain back chain)

/-- Reports rule operations out and never bring one back. -/
theorem narrows_reports (table : OperationTable) (back : ReadsBack table.operations)
    (earlier later : List (Nat × Outcome)) :
    (table.reports earlier).Narrows (table.reports (earlier ++ later)) ∧
      ∀ index outcome,
        (∀ failure after,
          (setOutcome index outcome).run (table.reports earlier) = .error failure after →
            after = table.reports earlier) ∧
        (MeasuredAt table.operations index → (table.reports earlier).outcomeAt index = none →
          (table.reports (earlier ++ [(index, outcome)])).outcomeAt index = some outcome) := by
  have before : Recorded table (table.reports earlier) := recorded_reports earlier
  constructor
  · rw [reports_append]
    exact (recorded_reports later).narrows (before.readsBack back)
  · intro index outcome
    constructor
    · intro failure after
      exact eq_of_setOutcome_error
    · rintro ⟨operation, found, isMeasurement⟩ unknown
      rw [reports_append]
      exact outcomeAt_report ⟨_, before.getElem? found, isMeasurement⟩ unknown outcome

/-- A correction that depends on the first measurement through two others. It is ruled out
before any outcome that it reads is known. -/
theorem narrows_reports_chainedCorrections :
    let table : OperationTable := ⟨[⟨0⟩, ⟨1⟩],
      [.pending (.measureSingle ⟨0⟩ .X false) none,
        .pending (.measureSingle ⟨0⟩ .Z false) (some (.eighthFirstCorrection 0 false)),
        .pending (.measureJoint [(⟨0⟩, .Z), (⟨1⟩, .X)] true)
          (some (.quarterCorrection 0 1 true)),
        .pending (.pauli ⟨1⟩ .X) (some (.eighthSecondCorrection 2))]⟩
    let before := table.reports [(0, .plus)]
    let after := table.reports
      ([(0, .plus)] ++ [(0, .minus), (3, .plus), (4, .plus), (2, .minus), (1, .minus)])
    before.runs 1 = .ok false ∧ before.outcomeAt 1 = none ∧ before.Narrows after ∧
      after.runs 3 = .ok false ∧ after.outcomeAt 2 = some .minus := by
  intro table before after
  have back : ReadsBack table.operations := by
    intro index operation found
    rcases List.getElem?_eq_some_iff.mp found with ⟨inside, rfl⟩
    clear found
    revert index
    decide
  have stopped : before.runs 1 = .ok false := by decide
  have chain : Relation.TransGen before.Reads 3 1 :=
    .tail (.single ⟨_, rfl, List.mem_singleton_self 2⟩)
      ⟨_, rfl, List.mem_cons_of_mem 0 (List.mem_singleton_self 1)⟩
  have narrows := (narrows_reports table back [(0, .plus)]
    [(0, .minus), (3, .plus), (4, .plus), (2, .minus), (1, .minus)]).1
  exact ⟨stopped, rfl, narrows, (narrows.ruledOut 1 stopped).2 3 chain, rfl⟩

end OperationTable

end LatticeSurgery
