import LatticeSurgery.Circuit.Format

namespace LatticeSurgery

open Text (Json)

/-! What is known of the state that a patch holds. Amplitudes are not tracked:
a state has a name, or it is unknown. -/

inductive SymbolicState where
  | zero
  | one
  | plus
  | minus
  | yPlus
  | yMinus
  | magic
  | unknown
deriving DecidableEq, Repr

namespace SymbolicState

def all : List SymbolicState := [zero, one, plus, minus, yPlus, yMinus, magic, unknown]

def name : SymbolicState → String
  | zero => "Zero"
  | one => "One"
  | plus => "Plus"
  | minus => "Minus"
  | yPlus => "YPlus"
  | yMinus => "YMinus"
  | magic => "Magic"
  | unknown => "Unknown"

def ofName? (name : String) : Option SymbolicState :=
  all.find? fun state => state.name = name

def ket : SymbolicState → String
  | zero => "|0>"
  | one => "|1>"
  | plus => "|+>"
  | minus => "|->"
  | yPlus => "|+i>"
  | yMinus => "|-i>"
  | magic => "|m>"
  | unknown => "|?>"

/-- The state after a Pauli operator, up to a global phase. -/
def apply : Pauli → SymbolicState → SymbolicState
  | .I, state => state
  | _, unknown | _, magic => unknown
  | .Z, zero => zero
  | .Z, one => one
  | _, zero => one
  | _, one => zero
  | .X, plus => plus
  | .X, minus => minus
  | _, plus => minus
  | _, minus => plus
  | .Y, yPlus => yPlus
  | .Y, yMinus => yMinus
  | _, yPlus => yMinus
  | _, yMinus => yPlus

def toJson (state : SymbolicState) : Json := .string state.name

def ofJson? (json : Json) : Option SymbolicState := json.unit? >>= ofName?

end SymbolicState

/-! What happens to a patch during one time slice. -/

inductive Activity where
  | unitary (operator : Pauli)
  | measurement (basis : Pauli)
deriving DecidableEq, Repr

namespace Activity

def toJson : Activity → Json
  | .unitary operator => .object [("Unitary", operator.toJson)]
  | .measurement basis => .object [("Measurement", basis.toJson)]

def ofJson? (json : Json) : Option Activity := do
  match ← json.variant? with
  | ("Unitary", some content) => return .unitary (← Pauli.ofJson? content)
  | ("Measurement", some content) => return .measurement (← Pauli.ofJson? content)
  | _ => none

end Activity

/-! A patch is idle in a state, or it is active and settles into a state in the
slice that follows. -/

inductive PatchState where
  | idle (state : SymbolicState)
  | active (activity : Activity) (next : SymbolicState)
deriving DecidableEq, Repr

namespace PatchState

def settled : PatchState → SymbolicState
  | .idle state => state
  | .active _ next => next

def withPauli (operator : Pauli) (state : PatchState) : PatchState :=
  .active (.unitary operator) (state.settled.apply operator)

def measured (basis : Pauli) : PatchState := .active (.measurement basis) .unknown

def isMeasured : PatchState → Bool
  | .active (.measurement _) _ => true
  | _ => false

def toJson : PatchState → Json
  | .idle state => .object [("Symbolic", state.toJson)]
  | .active activity next =>
      .object [("Active", .object [("activity", activity.toJson), ("next", next.toJson)])]

def ofJson? (json : Json) : Option PatchState := do
  match ← json.variant? with
  | ("Symbolic", some content) => return .idle (← SymbolicState.ofJson? content)
  | ("Active", some content) =>
      match ← content.fields? ["activity", "next"] with
      | [some activity, some next] =>
          return .active (← Activity.ofJson? activity) (← SymbolicState.ofJson? next)
      | _ => none
  | _ => none

end PatchState

end LatticeSurgery
