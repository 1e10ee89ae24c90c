namespace LatticeSurgery

/-! Two ways in which a computation ends without a value. A fault means that the
computation left its machine words, its storage or its data: an integer result
does not fit, a sequence is too long to be stored, a graph has more nodes or links
than there are numbers for them, a position does not exist, a reference never ends
or an assertion is broken. An error is a refusal that names its cause. Faults carry
no state and no message, while every error type has its own wording. -/

inductive Fault where
  | overflow
  | storage
  | indexing
  | missingPosition
  | endlessReference
  | assertion
deriving DecidableEq, Repr

inductive Failure (Error : Type) where
  | fault (cause : Fault)
  | refused (error : Error)
deriving DecidableEq, Repr

abbrev Result (Error : Type) := Except (Failure Error)

namespace Failure

def map {Error Wider : Type} (widen : Error → Wider) : Failure Error → Failure Wider
  | .fault cause => .fault cause
  | .refused error => .refused (widen error)

end Failure

namespace Result

def ofFaulty {Error α : Type} : Except Fault α → Result Error α
  | .ok value => .ok value
  | .error cause => .error (.fault cause)

def refuse {Error α : Type} (error : Error) : Result Error α :=
  .error (.refused error)

def widen {Error Wider α : Type} (wrap : Error → Wider) : Result Error α → Result Wider α
  | .ok value => .ok value
  | .error failure => .error (failure.map wrap)

instance {Error : Type} : MonadLift (Except Fault) (Result Error) where
  monadLift := ofFaulty

@[simp] theorem ofFaulty_ok {Error α : Type} (value : α) :
    (ofFaulty (.ok value) : Result Error α) = .ok value := rfl

@[simp] theorem ofFaulty_error {Error α : Type} (cause : Fault) :
    (ofFaulty (.error cause) : Result Error α) = .error (.fault cause) := rfl

theorem ofFaulty_eq_ok_iff {Error α : Type} {attempt : Except Fault α} {value : α} :
    (ofFaulty attempt : Result Error α) = .ok value ↔ attempt = .ok value := by
  cases attempt <;> simp

end Result

/-! Changes in place. A change that fails leaves behind the state that it had reached. -/

abbrev Update (Error State : Type) := EStateM (Failure Error) State

namespace Update

def lift {Error State α : Type} : Result Error α → Update Error State α
  | .ok value => pure value
  | .error failure => throw failure

def refuse {Error State α : Type} (error : Error) : Update Error State α :=
  throw (.refused error)

/-- The state after a change, when the change does not fail. -/
def result {Error State : Type} (update : Update Error State Unit) (before : State) :
    Result Error State :=
  match update.run before with
  | .ok _ after => .ok after
  | .error failure _ => .error failure

/-- The state that a change leaves behind, whether or not it fails. -/
def leaves {Error State α : Type} (update : Update Error State α) (before : State) : State :=
  match update.run before with
  | .ok _ after => after
  | .error _ after => after

end Update

end LatticeSurgery
