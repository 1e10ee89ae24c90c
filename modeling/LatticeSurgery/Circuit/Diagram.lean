import LatticeSurgery.Circuit

namespace LatticeSurgery.Circuit

/-! A text diagram with one line per qubit and one column per block. The last
line labels the columns with the angle of a rotation or the sign of a measurement,
and symbols are centred over their label. -/

def label (block : Block) : String :=
  match block.kind with
  | .rotation angle => angle.text
  | .measurement true => "-M"
  | .measurement false => "M"

def blanks (count : Nat) : String := String.ofList (List.replicate count ' ')

def padRight (width : Nat) (content : String) : String :=
  content ++ blanks (width - content.length)

/-- An odd number of blanks leaves the larger part on the right. -/
def centred (width : Nat) (content : String) : String :=
  let missing := width - content.length
  blanks (missing / 2) ++ content ++ blanks (missing - missing / 2)

def column (content : String) : String := " " ++ content ++ " |"

def symbolColumn (qubit : Nat) (block : Block) : String :=
  let symbol := block.symbols[qubit]?.getD .I
  column (centred (label block).length symbol.text)

def diagramLine (circuit : Circuit) (margin qubit : Nat) : String :=
  let columns := circuit.blocks.map (symbolColumn qubit)
  padRight margin s!"q{qubit}" ++ " |" ++ String.join columns ++ "\n"

/-- The diagram of a circuit. A block that is narrower than the circuit has no
symbol for the last qubits. -/
def diagram (circuit : Circuit) : Except Fault String :=
  if circuit.blocks.any fun block => decide (block.width < circuit.qubits) then
    .error .missingPosition
  else
    let lastName := s!"q{circuit.qubits - 1}"
    let margin := lastName.length
    let lines := (List.range circuit.qubits).map (circuit.diagramLine margin)
    let labels := circuit.blocks.map fun block => column (label block)
    .ok (String.join lines ++ padRight margin "" ++ " |" ++ String.join labels ++ "\n")

end LatticeSurgery.Circuit
