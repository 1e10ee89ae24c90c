namespace LatticeSurgery

/-! Phases of Pauli products are Gaussian integers. Products of Pauli symbols
only ever reach the four units `1`, `i`, `-1` and `-i`. -/

structure Phase where
  re : Int
  im : Int
deriving DecidableEq, Repr

namespace Phase

def one : Phase := ⟨1, 0⟩

def i : Phase := ⟨0, 1⟩

def negI : Phase := ⟨0, -1⟩

def mul (left right : Phase) : Phase :=
  ⟨left.re * right.re - left.im * right.im, left.re * right.im + left.im * right.re⟩

instance : Mul Phase := ⟨mul⟩

@[simp] theorem mul_re (left right : Phase) :
    (left * right).re = left.re * right.re - left.im * right.im := rfl

@[simp] theorem mul_im (left right : Phase) :
    (left * right).im = left.re * right.im + left.im * right.re := rfl

/-- The phase is `1` or `-1`. -/
def IsSign (phase : Phase) : Prop := phase.im = 0 ∧ phase.re.natAbs = 1

instance (phase : Phase) : Decidable phase.IsSign := inferInstanceAs (Decidable (_ ∧ _))

example : i * i = ⟨-1, 0⟩ := by decide

end Phase

/-! Single-qubit Pauli symbols and their products. -/

inductive Pauli where
  | I
  | X
  | Y
  | Z
deriving DecidableEq, Repr

namespace Pauli

def letter : Pauli → Char
  | I => 'I'
  | X => 'X'
  | Y => 'Y'
  | Z => 'Z'

def ofLetter? : Char → Option Pauli
  | 'I' => some I
  | 'X' => some X
  | 'Y' => some Y
  | 'Z' => some Z
  | _ => none

@[simp] theorem ofLetter?_letter (symbol : Pauli) :
    ofLetter? symbol.letter = some symbol := by
  cases symbol <;> rfl

def text (symbol : Pauli) : String := symbol.letter.toString

/-- The identity commutes with every symbol and every symbol with itself.
Distinct symbols other than the identity anticommute. -/
def commutes (left right : Pauli) : Bool :=
  left = right || left = I || right = I

def mul : Pauli → Pauli → Phase × Pauli
  | I, right => (Phase.one, right)
  | left, I => (Phase.one, left)
  | X, X | Y, Y | Z, Z => (Phase.one, I)
  | Z, X => (Phase.i, Y)
  | X, Z => (Phase.negI, Y)
  | X, Y => (Phase.i, Z)
  | Y, X => (Phase.negI, Z)
  | Y, Z => (Phase.i, X)
  | Z, Y => (Phase.negI, X)

example : mul Z X = (Phase.i, Y) := rfl

end Pauli

/-! Operator strings, one symbol per qubit. Operations on two strings look at
the positions that both of them have. -/

abbrev PauliString := List Pauli

namespace PauliString

def text (symbols : PauliString) : String :=
  String.ofList (symbols.map Pauli.letter)

/-- Read one symbol per character, or report the first character that is none. -/
def parse (source : String) : Except Char PauliString :=
  source.toList.mapM fun character =>
    match Pauli.ofLetter? character with
    | some symbol => .ok symbol
    | none => .error character

def anticommutingPositions (left right : PauliString) : Nat :=
  (left.zip right).countP fun pair => !pair.1.commutes pair.2

def commutes (left right : PauliString) : Bool :=
  anticommutingPositions left right % 2 = 0

/-- Positionwise product, with the phases of all positions multiplied from the
first position on. -/
def mul (left right : PauliString) : Phase × PauliString :=
  let products := left.zipWith Pauli.mul right
  (products.foldl (fun phase product => phase * product.1) Phase.one,
    products.map Prod.snd)

/-- The qubits on which the string acts, with their symbols. -/
def support (symbols : PauliString) : List (Nat × Pauli) :=
  symbols.zipIdx.filterMap fun (symbol, qubit) =>
    if symbol = .I then none else some (qubit, symbol)

def identity (width : Nat) : PauliString := List.replicate width .I

def isIdentity (symbols : PauliString) : Bool := symbols.all (· = .I)

def containsY (symbols : PauliString) : Bool := symbols.contains .Y

end PauliString

end LatticeSurgery
