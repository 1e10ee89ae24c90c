import LatticeSurgery.Fault
import Mathlib.Data.List.Forall2

namespace LatticeSurgery.Result

/-! # Computations that end with a value

A chain of computations ends with a value when each of them does. -/

variable {ε α β : Type}

@[simp] theorem pure_eq_ok (value : α) : (pure value : Except ε α) = .ok value := rfl

@[simp] theorem ok_bind (value : α) (next : α → Except ε β) :
    (Except.ok value >>= next) = next value := rfl

@[simp] theorem error_bind (failure : ε) (next : α → Except ε β) :
    (Except.error failure >>= next) = .error failure := rfl

theorem bind_eq_ok {attempt : Except ε α} {next : α → Except ε β} {value : β} :
    attempt >>= next = .ok value ↔ ∃ found, attempt = .ok found ∧ next found = .ok value := by
  cases attempt <;> simp

@[simp] theorem liftM_eq_ofFaulty {Error : Type} (attempt : Except Fault α) :
    (liftM attempt : Result Error α) = ofFaulty attempt := rfl

@[simp] theorem refuse_bind {Error : Type} (error : Error) (next : α → Result Error β) :
    (refuse error >>= next) = refuse error := rfl

@[simp] theorem refuse_ne_ok {Error : Type} (error : Error) (value : α) :
    (refuse error : Result Error α) ≠ .ok value := by
  simp [refuse]

theorem widen_eq_ok {Error Wider : Type} {wrap : Error → Wider} {attempt : Result Error α}
    {value : α} : attempt.widen wrap = .ok value ↔ attempt = .ok value := by
  cases attempt <;> simp [widen]

/-- Running a list of computations gives the list of their values. -/
theorem mapM_eq_ok {compute : α → Except ε β} {inputs : List α} {values : List β} :
    inputs.mapM compute = .ok values ↔
      List.Forall₂ (fun input value => compute input = .ok value) inputs values := by
  induction inputs generalizing values with
  | nil => cases values <;> simp
  | cons input rest induction =>
      rw [List.mapM_cons, bind_eq_ok]
      cases values with
      | nil => simp [bind_eq_ok]
      | cons value values => simp [bind_eq_ok, induction]

theorem mapM_eq_map {compute : α → Except ε β} {read : α → β} {inputs : List α}
    (each : ∀ input ∈ inputs, compute input = .ok (read input)) :
    inputs.mapM compute = .ok (inputs.map read) := by
  rw [mapM_eq_ok, List.forall₂_map_right_iff, List.forall₂_same]
  exact each

theorem exists_mapM {compute : α → Except ε β} {Holds : α → β → Prop} {inputs : List α}
    (each : ∀ input ∈ inputs, ∃ value, compute input = .ok value ∧ Holds input value) :
    ∃ values, inputs.mapM compute = .ok values ∧ List.Forall₂ Holds inputs values := by
  induction inputs with
  | nil => exact ⟨[], rfl, .nil⟩
  | cons input rest induction =>
      rcases each input List.mem_cons_self with ⟨first, computed, holds⟩
      rcases induction fun other member => each other (List.mem_cons_of_mem _ member) with
        ⟨others, computedOthers, othersHold⟩
      refine ⟨first :: others, ?_, .cons holds othersHold⟩
      rw [List.mapM_cons, computed, ok_bind, computedOthers]
      rfl

theorem exists_mapM_of_forall {compute : α → Except ε β} {inputs : List α}
    (each : ∀ input ∈ inputs, ∃ value, compute input = .ok value) :
    ∃ values, inputs.mapM compute = .ok values := by
  have found : ∀ input ∈ inputs, ∃ value, compute input = .ok value ∧ True :=
    fun input member => (each input member).imp fun _ computed => ⟨computed, trivial⟩
  rcases exists_mapM found with ⟨values, computed, _⟩
  exact ⟨values, computed⟩

/-- A search in which every test is decided finds out whether one of them holds. -/
theorem exists_anyM {test : α → Except ε Bool} {inputs : List α}
    (decided : ∀ input ∈ inputs, ∃ answer, test input = .ok answer) :
    ∃ answer, inputs.anyM test = .ok answer ∧
      (answer = true ↔ ∃ input ∈ inputs, test input = .ok true) := by
  induction inputs with
  | nil => exact ⟨false, rfl, by simp⟩
  | cons input rest induction =>
      rcases decided input List.mem_cons_self with ⟨first, tested⟩
      rcases induction fun other member =>
        decided other (.tail _ member) with ⟨others, testedOthers, found⟩
      rw [List.anyM, tested, ok_bind]
      cases first with
      | true => exact ⟨true, rfl, by simp [tested]⟩
      | false => exact ⟨others, testedOthers, by simp [tested, found]⟩

/-- A search that finds nothing has decided every test. -/
theorem of_anyM_eq_ok_false {test : α → Except ε Bool} {inputs : List α}
    (searched : inputs.anyM test = .ok false) : ∀ input ∈ inputs, test input = .ok false := by
  induction inputs with
  | nil => exact List.forall_mem_nil _
  | cons input rest induction =>
      rw [List.anyM, bind_eq_ok] at searched
      rcases searched with ⟨first, tested, searched⟩
      cases first with
      | true => cases searched
      | false => exact List.forall_mem_cons.mpr ⟨tested, induction searched⟩

theorem exists_of_mem_left {Holds : α → β → Prop} {inputs : List α} {values : List β}
    (related : List.Forall₂ Holds inputs values) {input : α} (member : input ∈ inputs) :
    ∃ value ∈ values, Holds input value := by
  induction related with
  | nil => cases member
  | cons holds _ induction =>
      rcases List.mem_cons.mp member with rfl | member
      · exact ⟨_, List.mem_cons_self, holds⟩
      · rcases induction member with ⟨value, valueMember, holds⟩
        exact ⟨value, .tail _ valueMember, holds⟩

theorem exists_of_mem_right {Holds : α → β → Prop} {inputs : List α} {values : List β}
    (related : List.Forall₂ Holds inputs values) {value : β} (member : value ∈ values) :
    ∃ input ∈ inputs, Holds input value :=
  exists_of_mem_left related.flip member

theorem forall₂_trans {γ : Type} {First : α → β → Prop} {Second : β → γ → Prop}
    {Both : α → γ → Prop} (compose : ∀ {left middle right}, First left middle →
      Second middle right → Both left right) {lefts : List α} {middles : List β} {rights : List γ}
    (first : List.Forall₂ First lefts middles) (second : List.Forall₂ Second middles rights) :
    List.Forall₂ Both lefts rights := by
  induction first generalizing rights with
  | nil =>
      cases second
      exact .nil
  | cons head _ induction =>
      cases second with
      | cons nextHead nextRest => exact .cons (compose head nextHead) (induction nextRest)

theorem forall₂_and {First Second : α → β → Prop} {lefts : List α} {rights : List β}
    (first : List.Forall₂ First lefts rights) (second : List.Forall₂ Second lefts rights) :
    List.Forall₂ (fun left right => First left right ∧ Second left right) lefts rights := by
  induction first with
  | nil => exact .nil
  | cons head _ induction =>
      cases second with
      | cons otherHead otherRest => exact .cons ⟨head, otherHead⟩ (induction otherRest)

theorem map_eq_of_forall₂ {γ : Type} {Holds : α → β → Prop} {left : α → γ} {right : β → γ}
    (same : ∀ input value, Holds input value → left input = right value) {inputs : List α}
    {values : List β} (related : List.Forall₂ Holds inputs values) :
    inputs.map left = values.map right := by
  rw [← List.forall₂_eq_eq_eq, List.forall₂_map_left_iff, List.forall₂_map_right_iff]
  exact related.imp same

theorem forall₂_zipIdx {Holds : α → β → Prop} {inputs : List α} {values : List β}
    (related : List.Forall₂ Holds inputs values) (start : Nat) :
    List.Forall₂ (fun input value => Holds input.1 value.1 ∧ input.2 = value.2)
      (inputs.zipIdx start) (values.zipIdx start) := by
  induction related generalizing start with
  | nil => exact .nil
  | cons head _ induction => exact .cons ⟨head, rfl⟩ (induction (start + 1))

/-- The members of lists that are computed one by one. -/
theorem mem_flatten_of_mapM {compute : α → Except ε (List β)} {Holds : α → β → Prop}
    {inputs : List α} {values : List (List β)} (computed : inputs.mapM compute = .ok values)
    (each : ∀ input ∈ inputs, ∀ found, compute input = .ok found →
      ∀ value, value ∈ found ↔ Holds input value) (value : β) :
    value ∈ values.flatten ↔ ∃ input ∈ inputs, Holds input value := by
  induction mapM_eq_ok.mp computed with
  | nil => simp
  | cons first related induction =>
      have rest := induction (mapM_eq_ok.mpr related) fun other member =>
        each other (.tail _ member)
      rw [List.flatten_cons, List.mem_append, each _ List.mem_cons_self _ first, rest]
      simp

/-- A property that every step keeps holds at the end of a run. -/
theorem of_foldlM {σ : Type} {step : σ → α → Except ε σ} {inputs : List α} (Holds : σ → Prop)
    (kept : ∀ before after, ∀ input ∈ inputs, Holds before → step before input = .ok after →
      Holds after)
    {start final : σ} (holds : Holds start) (run : inputs.foldlM step start = .ok final) :
    Holds final := by
  induction inputs generalizing start with
  | nil => exact Except.ok.inj run ▸ holds
  | cons input rest induction =>
      rw [List.foldlM_cons, bind_eq_ok] at run
      rcases run with ⟨next, stepped, run⟩
      have next := kept start next input List.mem_cons_self holds stepped
      refine induction (fun before after other member => ?_) next run
      exact kept before after other (List.mem_cons_of_mem _ member)

/-- A run ends well when its steps do, if no step depends on the ones before it. -/
theorem exists_foldlM_iff {σ : Type} {step : σ → α → Except ε σ} {Fine : α → Prop}
    (each : ∀ before input, (∃ after, step before input = .ok after) ↔ Fine input)
    {inputs : List α} {start : σ} :
    (∃ final, inputs.foldlM step start = .ok final) ↔ ∀ input ∈ inputs, Fine input := by
  induction inputs generalizing start with
  | nil => simp
  | cons input rest induction =>
      rw [List.foldlM_cons, List.forall_mem_cons]
      constructor
      · intro run
        rcases run with ⟨final, run⟩
        rcases bind_eq_ok.mp run with ⟨next, stepped, run⟩
        exact ⟨(each start input).mp ⟨next, stepped⟩, induction.mp ⟨final, run⟩⟩
      · intro fine
        rcases (each start input).mpr fine.1 with ⟨next, stepped⟩
        rcases induction.mpr fine.2 with ⟨final, run⟩
        exact ⟨final, bind_eq_ok.mpr ⟨next, stepped, run⟩⟩

/-- Failures of a run are failures of its steps. -/
theorem of_foldlM_error {σ : Type} {step : σ → α → Except ε σ} {inputs : List α}
    (Holds : ε → Prop)
    (each : ∀ before, ∀ input ∈ inputs, ∀ failure, step before input = .error failure →
      Holds failure)
    {start : σ} {failure : ε} (run : inputs.foldlM step start = .error failure) :
    Holds failure := by
  induction inputs generalizing start with
  | nil => cases run
  | cons input rest induction =>
      rw [List.foldlM_cons] at run
      cases stepped : step start input with
      | error cause =>
          rw [stepped, error_bind] at run
          exact each start input List.mem_cons_self failure (stepped.trans run)
      | ok next =>
          rw [stepped, ok_bind] at run
          exact induction (fun before other member => each before other (.tail _ member)) run

/-- The first computation that fails decides about the failure. -/
theorem mapM_eq_error {compute : α → Except ε β} {before : List α} {input : α} {rest : List α}
    {failure : ε} (fine : ∀ earlier ∈ before, ∃ value, compute earlier = .ok value)
    (fails : compute input = .error failure) :
    (before ++ input :: rest).mapM compute = .error failure := by
  rcases exists_mapM_of_forall fine with ⟨values, computed⟩
  rw [List.mapM_append, computed, ok_bind, List.mapM_cons, fails]
  rfl

/-- A list of computations fails with the failure of one of them. -/
theorem exists_of_mapM_error {compute : α → Except ε β} {inputs : List α} {failure : ε}
    (failed : inputs.mapM compute = .error failure) :
    ∃ input ∈ inputs, compute input = .error failure := by
  induction inputs with
  | nil => cases failed
  | cons input rest induction =>
      rw [List.mapM_cons] at failed
      cases computed : compute input with
      | error first =>
          rw [computed] at failed
          cases failed
          exact ⟨input, List.mem_cons_self, computed⟩
      | ok value =>
          rw [computed, ok_bind] at failed
          cases others : rest.mapM compute with
          | error later =>
              rw [others] at failed
              cases failed
              rcases induction others with ⟨other, member, otherFails⟩
              exact ⟨other, .tail _ member, otherFails⟩
          | ok values =>
              rw [others] at failed
              cases failed

/-! ## The ends of a computation -/

/-- A computation ends with a value of some kind, with a refusal, or with one of some faults. -/
inductive Ends {Error : Type} (May : Fault → Prop) (Holds : α → Prop) : Result Error α → Prop
  | ok {value : α} (holds : Holds value) : Ends May Holds (.ok value)
  | refused (error : Error) : Ends May Holds (refuse error)
  | fault {cause : Fault} (may : May cause) : Ends May Holds (.error (.fault cause))

namespace Ends

variable {Error σ : Type} {May : Fault → Prop} {Holds : α → Prop}

theorem imp {Wider : α → Prop} {attempt : Result Error α} (first : Ends May Holds attempt)
    (implies : ∀ value, Holds value → Wider value) : Ends May Wider attempt := by
  cases first with
  | ok holds => exact .ok (implies _ holds)
  | refused error => exact .refused error
  | fault may => exact .fault may

theorem bind {Next : β → Prop} {attempt : Result Error α} {next : α → Result Error β}
    (first : Ends May Holds attempt) (rest : ∀ value, Holds value → Ends May Next (next value)) :
    Ends May Next (attempt >>= next) := by
  cases first with
  | ok holds => exact rest _ holds
  | refused error => exact .refused error
  | fault may => exact .fault may

theorem mapM {Holds : β → Prop} {compute : α → Result Error β} {inputs : List α}
    (each : ∀ input ∈ inputs, Ends May Holds (compute input)) :
    Ends May (fun values => ∀ value ∈ values, Holds value) (inputs.mapM compute) := by
  induction inputs with
  | nil => exact .ok (List.forall_mem_nil _)
  | cons input rest induction =>
      rw [List.mapM_cons]
      apply (each input List.mem_cons_self).bind
      intro value holds
      apply (induction fun other member => each other (.tail _ member)).bind
      intro values othersHold
      exact .ok (List.forall_mem_cons.mpr ⟨holds, othersHold⟩)

theorem foldlM {Holds : σ → Prop} {step : σ → α → Result Error σ} {inputs : List α}
    (each : ∀ before, ∀ input ∈ inputs, Holds before → Ends May Holds (step before input))
    {start : σ} (holds : Holds start) : Ends May Holds (inputs.foldlM step start) := by
  induction inputs generalizing start with
  | nil => exact .ok holds
  | cons input rest induction =>
      rw [List.foldlM_cons]
      apply (each start input List.mem_cons_self holds).bind
      intro next nextHolds
      exact induction (fun before other member => each before other (.tail _ member)) nextHolds

theorem widen {Wider : Type} {attempt : Result Error α} (ends : Ends May Holds attempt)
    (wrap : Error → Wider) : Ends May Holds (attempt.widen wrap) := by
  cases ends with
  | ok holds => exact .ok holds
  | refused error => exact .refused (wrap error)
  | fault may => exact .fault may

theorem may_of_fault {attempt : Result Error α} {cause : Fault} (ends : Ends May Holds attempt)
    (failed : attempt = .error (.fault cause)) : May cause := by
  cases ends with
  | ok holds => cases failed
  | refused error => cases failed
  | fault may =>
      cases failed
      exact may

end Ends

/-! ## Two computations side by side -/

/-- Two computations end alike: with values that are related, or with failures of which the
second translates the first. -/
inductive Alike {Error Other : Type} (translate : Error → Other) (Related : α → β → Prop) :
    Result Error α → Result Other β → Prop
  | ok {first : α} {second : β} (related : Related first second) :
      Alike translate Related (.ok first) (.ok second)
  | error (failure : Failure Error) :
      Alike translate Related (.error failure) (.error (failure.map translate))

namespace Alike

variable {Error Other σ τ : Type} {translate : Error → Other}

theorem exists_of_ok {Related : α → β → Prop} {first : α} {second : Result Other β}
    (alike : Alike translate Related (.ok first) second) :
    ∃ value, second = .ok value ∧ Related first value := by
  cases alike with
  | ok related => exact ⟨_, rfl, related⟩

theorem eq_of_error {Related : α → β → Prop} {failure : Failure Error} {second : Result Other β}
    (alike : Alike translate Related (.error failure) second) :
    second = .error (failure.map translate) := by
  cases alike with
  | error => rfl

theorem bind {Related : α → β → Prop} {Next : σ → τ → Prop} {first : Result Error α}
    {second : Result Other β} {firstRest : α → Result Error σ} {secondRest : β → Result Other τ}
    (alike : Alike translate Related first second)
    (rest : ∀ left right, Related left right → Alike translate Next (firstRest left)
      (secondRest right)) :
    Alike translate Next (first >>= firstRest) (second >>= secondRest) := by
  cases alike with
  | ok related => exact rest _ _ related
  | error failure => exact .error failure

/-- A computation that both have in common ends both of them with its fault. -/
theorem bind_ofFaulty {Next : σ → τ → Prop} {firstRest : α → Result Error σ}
    {secondRest : α → Result Other τ} (attempt : Except Fault α)
    (rest : ∀ value, attempt = .ok value → Alike translate Next (firstRest value)
      (secondRest value)) :
    Alike translate Next (ofFaulty attempt >>= firstRest) (ofFaulty attempt >>= secondRest) := by
  cases attempt with
  | ok value => exact rest value rfl
  | error fault => exact .error (.fault fault)

/-- Runs over the same inputs end alike when their steps do. The relation may look at the
inputs that are done. -/
theorem foldlM (Related : List α → σ → τ → Prop) {firstStep : σ → α → Result Error σ}
    {secondStep : τ → α → Result Other τ} {inputs : List α}
    (each : ∀ done left right, ∀ input ∈ inputs, Related done left right →
      Alike translate (Related (done ++ [input])) (firstStep left input) (secondStep right input))
    (done : List α) {left : σ} {right : τ} (start : Related done left right) :
    Alike translate (Related (done ++ inputs)) (inputs.foldlM firstStep left)
      (inputs.foldlM secondStep right) := by
  induction inputs generalizing done left right with
  | nil =>
      rw [List.append_nil]
      exact .ok start
  | cons input rest induction =>
      rw [List.foldlM_cons, List.foldlM_cons, List.append_cons]
      apply (each done left right input List.mem_cons_self start).bind
      intro nextLeft nextRight related
      apply induction _ _ related
      intro done left right other member
      exact each done left right other (List.mem_cons_of_mem _ member)

end Alike

/-- Two computations agree: they end with related values or with related failures. -/
inductive Agree {Fails Others : Type} (Causes : Fails → Others → Prop) (Related : α → β → Prop) :
    Except Fails α → Except Others β → Prop
  | ok {first : α} {second : β} (related : Related first second) :
      Agree Causes Related (.ok first) (.ok second)
  | error {first : Fails} {second : Others} (causes : Causes first second) :
      Agree Causes Related (.error first) (.error second)

namespace Agree

variable {Fails Others σ τ : Type} {Causes : Fails → Others → Prop} {Related : α → β → Prop}

theorem refl {Causes : Fails → Fails → Prop} {Related : α → α → Prop}
    (causes : ∀ failure, Causes failure failure) (related : ∀ value, Related value value)
    (attempt : Except Fails α) : Agree Causes Related attempt attempt := by
  cases attempt with
  | ok value => exact .ok (related value)
  | error failure => exact .error (causes failure)

theorem imp {Wider : α → β → Prop} {first : Except Fails α} {second : Except Others β}
    (agree : Agree Causes Related first second)
    (wider : ∀ left right, Related left right → Wider left right) :
    Agree Causes Wider first second := by
  cases agree with
  | ok related => exact .ok (wider _ _ related)
  | error causes => exact .error causes

theorem bind {Next : σ → τ → Prop} {first : Except Fails α} {second : Except Others β}
    {firstRest : α → Except Fails σ} {secondRest : β → Except Others τ}
    (agree : Agree Causes Related first second)
    (rest : ∀ left right, Related left right → Agree Causes Next (firstRest left)
      (secondRest right)) :
    Agree Causes Next (first >>= firstRest) (second >>= secondRest) := by
  cases agree with
  | ok related => exact rest _ _ related
  | error causes => exact .error causes

theorem ite {condition : Prop} [Decidable condition] {first firstElse : Except Fails α}
    {second secondElse : Except Others β}
    (whenTrue : condition → Agree Causes Related first second)
    (whenFalse : ¬ condition → Agree Causes Related firstElse secondElse) :
    Agree Causes Related (if condition then first else firstElse)
      (if condition then second else secondElse) := by
  split
  · next holds => exact whenTrue holds
  · next fails => exact whenFalse fails

/-- Computations that agree one by one agree as a whole. -/
theorem mapM {Matched : σ → τ → Prop} {compute : σ → Except Fails α}
    {other : τ → Except Others β}
    (each : ∀ left right, Matched left right → Agree Causes Related (compute left) (other right))
    {lefts : List σ} {rights : List τ} (inputs : List.Forall₂ Matched lefts rights) :
    Agree Causes (List.Forall₂ Related) (lefts.mapM compute) (rights.mapM other) := by
  induction inputs with
  | nil => exact .ok .nil
  | cons head _ induction =>
      rw [List.mapM_cons, List.mapM_cons]
      apply (each _ _ head).bind
      intro left right related
      apply induction.bind
      intro others moreOthers rest
      exact .ok (.cons related rest)

theorem foldlM {Matched : σ → τ → Prop} {step : α → σ → Except Fails α}
    {other : β → τ → Except Others β}
    (each : ∀ before after left right, Related before after → Matched left right →
      Agree Causes Related (step before left) (other after right))
    {lefts : List σ} {rights : List τ} (inputs : List.Forall₂ Matched lefts rights) {start : α}
    {otherStart : β} (started : Related start otherStart) :
    Agree Causes Related (lefts.foldlM step start) (rights.foldlM other otherStart) := by
  induction inputs generalizing start otherStart with
  | nil => exact .ok started
  | cons head _ induction =>
      rw [List.foldlM_cons, List.foldlM_cons]
      apply (each _ _ _ _ started head).bind
      intro before after related
      exact induction related

theorem ofFaulty {Error Other : Type} {Causes : Failure Error → Failure Other → Prop}
    (faults : ∀ cause, Causes (.fault cause) (.fault cause)) {first : Except Fault α}
    {second : Except Fault β} (agree : Agree Eq Related first second) :
    Agree Causes Related (Result.ofFaulty first) (Result.ofFaulty second) := by
  cases agree with
  | ok related => exact .ok related
  | error causes =>
      cases causes
      exact .error (faults _)

end Agree

/-! ## Changes in place

A computation in place leaves a state behind, whether it ends well or not. -/

variable {σ : Type}

theorem run_bind_eq_ok {first : EStateM ε σ α} {rest : α → EStateM ε σ β} {before after : σ}
    {value : β} :
    (first >>= rest).run before = .ok value after ↔ ∃ found between,
      first.run before = .ok found between ∧ (rest found).run between = .ok value after := by
  rw [EStateM.run_bind]
  cases first.run before with
  | ok found between =>
      constructor
      · exact fun performed => ⟨found, between, rfl, performed⟩
      · intro performed
        rcases performed with ⟨_, _, same, performed⟩
        cases same
        exact performed
  | error failure between => simp

theorem run_bind_eq_error {first : EStateM ε σ α} {rest : α → EStateM ε σ β} {before after : σ}
    {failure : ε} :
    (first >>= rest).run before = .error failure after ↔
      first.run before = .error failure after ∨ ∃ found between,
        first.run before = .ok found between ∧ (rest found).run between = .error failure after := by
  rw [EStateM.run_bind]
  cases first.run before with
  | ok found between => simp
  | error other between => simp

end LatticeSurgery.Result

namespace LatticeSurgery.Update

variable {Error State α : Type} {before after : State}

@[simp] theorem lift_ok (value : α) : (lift (.ok value) : Update Error State α) = pure value := rfl

@[simp] theorem run_lift_error (failure : Failure Error) :
    (lift (.error failure) : Update Error State α).run before = .error failure before := rfl

@[simp] theorem run_refuse (error : Error) :
    (refuse error : Update Error State α).run before = .error (.refused error) before := rfl

theorem result_eq_ok {update : Update Error State Unit} :
    update.result before = .ok after ↔ update.run before = .ok () after := by
  rw [result]
  cases update.run before <;> simp

theorem result_of_ok {update : Update Error State Unit} (run : update.run before = .ok () after) :
    update.result before = .ok after := by
  rw [result, run]

theorem result_of_error {update : Update Error State Unit} {failure : Failure Error}
    (run : update.run before = .error failure after) : update.result before = .error failure := by
  rw [result, run]

@[simp] theorem result_pure : (pure () : Update Error State Unit).result before = .ok before := rfl

@[simp] theorem result_set : (set after : Update Error State Unit).result before = .ok after := rfl

@[simp] theorem result_modify (change : State → State) :
    (modify change : Update Error State Unit).result before = .ok (change before) := rfl

@[simp] theorem result_get_bind (rest : State → Update Error State Unit) :
    (get >>= rest).result before = (rest before).result before := rfl

@[simp] theorem result_lift_bind (attempt : Result Error α) (rest : α → Update Error State Unit) :
    (lift attempt >>= rest).result before =
      attempt >>= fun value => (rest value).result before := by
  cases attempt <;> rfl

theorem result_bind (first second : Update Error State Unit) :
    (first >>= fun _ => second).result before = first.result before >>= second.result := by
  rw [result, result, EStateM.run_bind]
  cases first.run before <;> rfl

theorem result_forM_cons (input : α) (rest : List α) (step : α → Update Error State Unit) :
    ((input :: rest).forM step).result before =
      (step input).result before >>= (rest.forM step).result :=
  result_bind (step input) (rest.forM step)

theorem result_forM_append (first second : List α) (step : α → Update Error State Unit) :
    ((first ++ second).forM step).result before =
      (first.forM step).result before >>= (second.forM step).result := by
  induction first generalizing before with
  | nil => rfl
  | cons input rest induction =>
      rw [List.cons_append, result_forM_cons, result_forM_cons, bind_assoc]
      congr 1
      funext next
      exact induction

theorem run_adaptExcept_ok {Wider : Type} {update : Update Error State α} {value : α}
    (run : update.run before = .ok value after) (change : Failure Error → Failure Wider) :
    (EStateM.adaptExcept change update).run before = .ok value after := by
  rw [EStateM.run] at run ⊢
  rw [EStateM.adaptExcept, run]

theorem run_adaptExcept_error {Wider : Type} {update : Update Error State α}
    {failure : Failure Error} (run : update.run before = .error failure after)
    (change : Failure Error → Failure Wider) :
    (EStateM.adaptExcept change update).run before = .error (change failure) after := by
  rw [EStateM.run] at run ⊢
  rw [EStateM.adaptExcept, run]

/-- The change is made to its end, or it fails and leaves nothing behind. -/
inductive Atomic (May : Fault → Prop) (Holds : State → Prop) (update : Update Error State Unit)
    (before : State) : Prop
  | ok {after : State} (run : update.run before = .ok () after) (holds : Holds after)
  | refused {error : Error} (run : update.run before = .error (.refused error) before)
  | fault {cause : Fault} (run : update.run before = .error (.fault cause) before)
      (may : May cause)

namespace Atomic

variable {May : Fault → Prop} {Holds : State → Prop}

theorem get_bind {rest : State → Update Error State Unit}
    (next : Atomic May Holds (rest before) before) : Atomic May Holds (get >>= rest) before := by
  cases next with
  | ok run holds => exact .ok run holds
  | refused run => exact .refused run
  | fault run may => exact .fault run may

theorem lift_bind {Found : α → Prop} {attempt : Result Error α}
    {rest : α → Update Error State Unit} (first : Result.Ends May Found attempt)
    (next : ∀ value, Found value → Atomic May Holds (rest value) before) :
    Atomic May Holds (lift attempt >>= rest) before := by
  cases first with
  | ok found =>
      rw [lift_ok, pure_bind]
      exact next _ found
  | refused error => exact .refused rfl
  | fault may => exact .fault rfl may

theorem imp {Wider : State → Prop} {update : Update Error State Unit}
    (atomic : Atomic May Holds update before) (implies : ∀ after, Holds after → Wider after) :
    Atomic May Wider update before := by
  cases atomic with
  | ok run holds => exact .ok run (implies _ holds)
  | refused run => exact .refused run
  | fault run may => exact .fault run may

theorem widen {Wider : Type} {update : Update Error State Unit} (wrap : Error → Wider)
    (atomic : Atomic May Holds update before) :
    Atomic May Holds (EStateM.adaptExcept (Failure.map wrap) update) before := by
  cases atomic with
  | ok run holds => exact .ok (run_adaptExcept_ok run _) holds
  | refused run => exact .refused (run_adaptExcept_error run _)
  | fault run may => exact .fault (run_adaptExcept_error run _) may

theorem ends {update : Update Error State Unit} (atomic : Atomic May Holds update before) :
    Result.Ends May Holds (update.result before) := by
  cases atomic with
  | ok run holds =>
      rw [result_of_ok run]
      exact .ok holds
  | refused run =>
      rw [result_of_error run]
      exact .refused _
  | fault run may =>
      rw [result_of_error run]
      exact .fault may

end Atomic

theorem leaves_of_ok {update : Update Error State α} {value : α}
    (run : update.run before = .ok value after) : update.leaves before = after := by
  rw [leaves, run]

theorem leaves_of_error {update : Update Error State α} {failure : Failure Error}
    (run : update.run before = .error failure after) : update.leaves before = after := by
  rw [leaves, run]

/-- What holds before a change and after its end also holds when it fails. -/
theorem Atomic.holds_leaves {May : Fault → Prop} {Holds : State → Prop}
    {update : Update Error State Unit} (atomic : Atomic May Holds update before)
    (holds : Holds before) : Holds (update.leaves before) := by
  cases atomic with
  | ok run afterHolds =>
      rw [leaves_of_ok run]
      exact afterHolds
  | refused run =>
      rw [leaves_of_error run]
      exact holds
  | fault run may =>
      rw [leaves_of_error run]
      exact holds

end LatticeSurgery.Update
