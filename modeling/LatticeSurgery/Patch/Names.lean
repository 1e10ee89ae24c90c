import LatticeSurgery.Patch.Identifier

namespace LatticeSurgery

/-! Short names of patches in reports. Identifiers below `base` are shown as their
number. From `base` on they name the logical qubits `q0`, `q1` and so on, and then
the fresh patches `a0`, `a1` and so on. -/

structure PatchNames where
  logical : Nat

namespace PatchNames

def base : Nat := 4294967296

/-- Identifiers that are shown by short names. -/
def supply (index : Nat) : PatchId := ⟨base + index⟩

def text (names : PatchNames) (id : PatchId) : String :=
  if id.value < base then s!"#{id.value}"
  else
    let index := id.value - base
    if index < names.logical then s!"q{index}" else s!"a{index - names.logical}"

def read? (names : PatchNames) (source : String) : Option PatchId :=
  match source.toList with
  | [] => none
  | mark :: digits => do
      let number ← (String.ofList digits).toNat?
      match mark with
      | '#' => return ⟨number⟩
      | 'q' => return supply number
      | 'a' => return supply (names.logical + number)
      | _ => none

/-! Identifiers within a text are found by their form and replaced by their names. -/

def idAt? (source : List Char) : Option PatchId :=
  if (source.drop 8).head? = some '-' ∧ (source.drop 23).head? = some '-' then
    PatchId.ofGrouped? (source.take 36)
  else none

def replaceFrom (names : PatchNames) : (fuel : Nat) → List Char → (done : List Char) → List Char
  | 0, _, done => done.reverse
  | _, [], done => done.reverse
  | fuel + 1, character :: rest, done =>
      match idAt? (character :: rest) with
      | some id =>
          names.replaceFrom fuel (rest.drop 35) ((names.text id).toList.reverse ++ done)
      | none => names.replaceFrom fuel rest (character :: done)

def replace (names : PatchNames) (source : String) : String :=
  String.ofList (names.replaceFrom (source.length + 1) source.toList [])

end PatchNames

end LatticeSurgery
