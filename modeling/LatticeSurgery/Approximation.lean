import LatticeSurgery.Angle
import LatticeSurgery.Pauli
import LatticeSurgery.Text.Blank

namespace LatticeSurgery

/-! Gate sequences that stand in for rotations outside the dyadic set. -/

inductive Gate where
  | H
  | S
  | T
  | X
deriving DecidableEq, Repr

namespace Gate

def letter : Gate → Char
  | H => 'H'
  | S => 'S'
  | T => 'T'
  | X => 'X'

def ofLetter? : Char → Option Gate
  | 'H' => some H
  | 'S' => some S
  | 'T' => some T
  | 'X' => some X
  | _ => none

@[simp] theorem ofLetter?_letter (gate : Gate) : ofLetter? gate.letter = some gate := by
  cases gate <;> rfl

/-- The symbol that plays the role of X in the frame whose Z is `axis`. -/
def conjugateAxis : Pauli → Pauli
  | .X => .Z
  | _ => .X

/-- The basic rotations of a gate in time order, with `axis` in the role of Z. -/
def rotations (axis : Pauli) : Gate → List (Pauli × Angle)
  | S => [(axis, .quarter)]
  | T => [(axis, .eighth)]
  | X => [(conjugateAxis axis, .half)]
  | H => [(conjugateAxis axis, .quarter), (axis, .quarter), (conjugateAxis axis, .quarter)]

end Gate

abbrev GateSequence := List Gate

namespace GateSequence

def text (gates : GateSequence) : String := String.ofList (gates.map Gate.letter)

/-- Read one gate per character that is not blank, or report the first character
that is no gate. -/
def parse (source : String) : Except Char GateSequence :=
  (source.toList.filter fun character => !Text.isBlank character).mapM fun character =>
    match Gate.ofLetter? character with
    | some gate => .ok gate
    | none => .error character

end GateSequence

/-! A source of approximations gives a sequence for an angle, or none. -/

abbrev Approximator := Angle → Except Fault (Option GateSequence)

namespace Approximator

def none : Approximator := fun _ => .ok .none

end Approximator

/-! A table of sequences. Angles that differ by an even integer share an entry,
which is found under their normalized angle. -/

structure ApproximationTable where
  entries : List (Angle × GateSequence)
deriving DecidableEq, Repr

namespace ApproximationTable

def empty : ApproximationTable := ⟨[]⟩

def size (table : ApproximationTable) : Nat := table.entries.length

def insert (table : ApproximationTable) (angle : Angle) (gates : GateSequence) :
    Except Fault ApproximationTable := do
  let key ← angle.normalized
  return ⟨(key, gates) :: table.entries.filter fun entry => !decide (entry.1.Same key)⟩

def lookup (table : ApproximationTable) (angle : Angle) :
    Except Fault (Option GateSequence) := do
  let key ← angle.normalized
  return (table.entries.find? fun entry => decide (entry.1.Same key)).map Prod.snd

def approximator (table : ApproximationTable) : Approximator := table.lookup

end ApproximationTable

end LatticeSurgery
