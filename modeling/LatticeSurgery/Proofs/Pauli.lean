import LatticeSurgery.Pauli
import Mathlib.Data.List.Basic

namespace LatticeSurgery.PauliString

/-! # Strings by positions

A string is known by its width and the symbols at its positions. -/

/-- The symbol of a qubit. Qubits behind the end of a string are left alone. -/
def symbolAt (symbols : PauliString) (qubit : Nat) : Pauli := symbols.getD qubit .I

theorem symbolAt_of_lt {symbols : PauliString} {qubit : Nat} (inside : qubit < symbols.length) :
    symbols.symbolAt qubit = symbols[qubit] := by
  simp [symbolAt, inside]

theorem symbolAt_of_length_le {symbols : PauliString} {qubit : Nat}
    (outside : symbols.length ≤ qubit) : symbols.symbolAt qubit = .I := by
  simp [symbolAt, outside]

theorem lt_length_of_symbolAt {symbols : PauliString} {qubit : Nat}
    (acts : symbols.symbolAt qubit ≠ .I) : qubit < symbols.length := by
  by_contra outside
  exact acts (symbolAt_of_length_le (Nat.le_of_not_lt outside))

theorem ext_symbolAt {left right : PauliString} (sameLength : left.length = right.length)
    (sameSymbols : ∀ qubit, left.symbolAt qubit = right.symbolAt qubit) : left = right := by
  apply List.ext_getElem sameLength
  intro qubit leftInside rightInside
  rw [← symbolAt_of_lt leftInside, ← symbolAt_of_lt rightInside, sameSymbols]

theorem zipIdx_eq_map_range (symbols : PauliString) :
    symbols.zipIdx = (List.range symbols.length).map fun qubit =>
      (symbols.symbolAt qubit, qubit) := by
  apply List.ext_getElem (by simp)
  intro qubit inside _
  simp [symbolAt_of_lt (by simpa using inside)]

/-! ## Strings with at most one symbol -/

theorem length_identity (width : Nat) : (identity width).length = width := List.length_replicate

theorem symbolAt_identity (width qubit : Nat) : (identity width).symbolAt qubit = .I := by
  rw [symbolAt, identity, List.getD, List.getElem?_replicate]
  split <;> rfl

theorem length_set_identity (width qubit : Nat) (symbol : Pauli) :
    ((identity width).set qubit symbol).length = width := by
  rw [List.length_set, length_identity]

theorem symbolAt_set_identity {width qubit : Nat} (inside : qubit < width) (symbol : Pauli)
    (other : Nat) :
    symbolAt ((identity width).set qubit symbol) other = if other = qubit then symbol else .I := by
  rw [symbolAt, List.getD, List.getElem?_set]
  split
  · next here =>
      rw [length_identity, if_pos (here ▸ inside), if_pos here.symm]
      rfl
  · next elsewhere =>
      rw [if_neg (Ne.symm elsewhere)]
      exact symbolAt_identity width other

/-! ## Products -/

theorem length_mul_snd (left right : PauliString) :
    (mul left right).2.length = min left.length right.length := by
  simp [mul]

theorem symbolAt_mul_snd {left right : PauliString} (sameLength : left.length = right.length)
    (qubit : Nat) :
    (mul left right).2.symbolAt qubit =
      (Pauli.mul (left.symbolAt qubit) (right.symbolAt qubit)).2 := by
  simp only [symbolAt, mul, List.getD_eq_getElem?_getD, List.getElem?_map,
    List.getElem?_zipWith]
  by_cases inside : qubit < right.length
  · have insideLeft : qubit < left.length := by omega
    simp [inside, insideLeft]
  · have outsideLeft : ¬ qubit < left.length := by omega
    rw [List.getElem?_eq_none (by omega), List.getElem?_eq_none (by omega)]
    rfl

theorem anticommutingPositions_eq_countP {left right : PauliString}
    (sameLength : left.length = right.length) :
    anticommutingPositions left right = (List.range right.length).countP fun qubit =>
      !(left.symbolAt qubit).commutes (right.symbolAt qubit) := by
  have pairs : left.zip right = (List.range right.length).map fun qubit =>
      (left.symbolAt qubit, right.symbolAt qubit) := by
    apply List.ext_getElem (by simp [sameLength])
    intro qubit inside _
    rw [List.length_zip, Nat.lt_min] at inside
    simp [symbolAt_of_lt inside.1, symbolAt_of_lt inside.2]
  rw [anticommutingPositions, pairs, List.countP_map]
  rfl

end LatticeSurgery.PauliString
