import LatticeSurgery.Layout
import LatticeSurgery.Proofs.Lattice

namespace LatticeSurgery

open Result

/-! # Columns of the simple layout

The columns of qubits and magic states are words. When all of them fit, the qubits stand in even
columns and the magic states in columns of their own. The number of columns wraps around only
when it is the first one that is no word, and all magic states then stand left of the qubits. -/

namespace Word

theorem wrap32_eq (value : Int) : wrap32 value =
    if value % 4294967296 < 2147483648 then value % 4294967296
    else value % 4294967296 - 4294967296 := rfl

theorem wrap32_of_lt {value : Nat} (small : value < 2147483648) : wrap32 value = value := by
  rw [wrap32_eq]
  omega

end Word

namespace Layout

variable {qubits : List PatchId} {magic : Nat}

theorem simpleCols_cases {count : Nat} (few : count ≤ 1073741824) :
    simpleCols count = max (2 * count) 1 ∨ simpleCols count = -2147483648 := by
  rw [simpleCols, Word.wrap32_eq]
  omega

theorem simpleCols_of_lt {count : Nat} (few : count < 1073741824) :
    simpleCols count = (max (2 * count) 1 : Nat) := by
  rw [simpleCols, Word.wrap32_eq]
  omega

/-- The layout with magic states from a given column on. -/
def simpleFrom (qubits : List PatchId) (cols : Int) (magic : Nat) : Layout :=
  let magicCells := (List.range magic).map fun (index : Nat) => Cell.mk (cols + index) 0
  let qubitPatches := qubits.zipIdx.map fun (id, index) =>
    (Patch.square ⟨2 * index, 0⟩ .qubit .zero).withId id
  let magicPatches := magicCells.map fun cell => Patch.rotatedSquare cell .distillation .magic
  ⟨⟨qubitPatches ++ magicPatches, 3, cols⟩, magicCells,
    (List.range cols.toNat).map fun (col : Nat) => ⟨col, 2⟩⟩

/-- The columns that the layout needs are words. -/
structure Fits (qubits : List PatchId) (magic : Nat) : Prop where
  few : qubits.length ≤ 1073741824
  fewMagic : magic ≤ 2147483648
  narrow : simpleCols qubits.length + magic ≤ 2147483648

theorem fits_of_lt (small : max (2 * qubits.length) 1 + magic < 2147483648) :
    Fits qubits magic := by
  refine ⟨by omega, by omega, ?_⟩
  rw [simpleCols_of_lt (by omega)]
  omega

theorem simple_of_fits (fits : Fits qubits magic) :
    simple qubits magic = .ok (simpleFrom qubits (simpleCols qubits.length) magic) := by
  have few := fits.few
  have fewMagic := fits.fewMagic
  have qubitCol {index : Nat} (inside : index < qubits.length) :
      Word.check32 (2 * Word.wrap32 index) = .ok (2 * index) := by
    rw [Word.wrap32_of_lt (by omega), Word.check32_of_fits]
    rw [Word.Fits32, Word.limit32]
    omega
  have magicCol {index : Nat} (inside : index < magic) :
      Word.check32 (simpleCols qubits.length + Word.wrap32 index) =
        .ok (simpleCols qubits.length + index) := by
    have := fits.narrow
    have := simpleCols_cases few
    rw [Word.wrap32_of_lt (by omega), Word.check32_of_fits]
    rw [Word.Fits32, Word.limit32]
    omega
  have stored : Storage.reserve magic Storage.cellSize = .ok () := by
    refine if_pos ?_
    simp only [Word.Fits64, Word.limit64, Storage.cellSize, Int.ofNat_eq_natCast]
    omega
  refine bind_eq_ok.mpr ⟨_, mapM_eq_map fun entry member => ?_, bind_eq_ok.mpr ⟨_, stored,
    bind_eq_ok.mpr ⟨_, mapM_eq_map fun index member => ?_, rfl⟩⟩⟩
  · simp only [qubitCol (List.snd_lt_of_mem_zipIdx member)]
    rfl
  · rw [magicCol (List.mem_range.mp member)]
    rfl

theorem fits_of_simple {layout : Layout} (made : simple qubits magic = .ok layout) :
    Fits qubits magic := by
  rcases bind_eq_ok.mp made with ⟨qubitPatches, placed, made⟩
  rcases bind_eq_ok.mp made with ⟨_, _, made⟩
  rcases bind_eq_ok.mp made with ⟨magicCells, reserved, _⟩
  have few : qubits.length ≤ 1073741824 := by
    by_contra many
    have located : (qubits[1073741824], 1073741824) ∈ qubits.zipIdx :=
      List.mem_zipIdx_iff_getElem?.mpr (List.getElem?_eq_getElem (Nat.lt_of_not_le many))
    rcases exists_of_mem_left (mapM_eq_ok.mp placed) located with ⟨_, _, computed⟩
    rcases bind_eq_ok.mp computed with ⟨_, checked, _⟩
    exact absurd (Word.check32_eq_ok.mp checked).1 (by decide)
  have column {index : Nat} (inside : index < magic) :
      Word.Fits32 (simpleCols qubits.length + Word.wrap32 index) := by
    rcases exists_of_mem_left (mapM_eq_ok.mp reserved) (List.mem_range.mpr inside) with
      ⟨_, _, computed⟩
    rcases bind_eq_ok.mp computed with ⟨_, checked, _⟩
    exact (Word.check32_eq_ok.mp checked).1
  have cases := simpleCols_cases few
  simp only [Word.Fits32, Word.limit32, Word.wrap32_eq] at column
  have bounded : magic ≤ 2147483648 := by
    by_contra many
    have last := @column 2147483647 (by omega)
    have beyond := @column 2147483648 (by omega)
    omega
  refine ⟨few, bounded, ?_⟩
  rcases Nat.eq_zero_or_pos magic with none | some
  · omega
  · have last := @column (magic - 1) (by omega)
    omega

theorem simple_eq_ok {layout : Layout} : simple qubits magic = .ok layout ↔
    Fits qubits magic ∧ layout = simpleFrom qubits (simpleCols qubits.length) magic := by
  constructor
  · intro made
    have fits := fits_of_simple made
    exact ⟨fits, (Except.ok.inj ((simple_of_fits fits).symm.trans made)).symm⟩
  · rintro ⟨fits, rfl⟩
    exact simple_of_fits fits

/-- Magic states stand behind all qubits, or before them. -/
theorem Fits.ne_cols (fits : Fits qubits magic) {position index : Nat}
    (inside : position < qubits.length) (reserved : index < magic) :
    (2 * position : Int) ≠ simpleCols qubits.length + index := by
  have := simpleCols_cases fits.few
  have := fits.fewMagic
  omega

end Layout

end LatticeSurgery
