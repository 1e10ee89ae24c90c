import LatticeSurgery.Word

namespace LatticeSurgery

/-! Room for sequences and graphs. A sequence is stored in one piece, and the size of
a piece in bytes is a signed 64-bit word. The nodes of a graph are numbered by 32-bit
words, and so are its links. The largest word stands for the absence of a number. -/

namespace Storage

/-- Room for `count` elements of `size` bytes each. -/
def reserve (count size : Nat) : Except Fault Unit :=
  if Word.Fits64 (Int.ofNat (count * size)) then .ok () else .error .storage

/-- How many nodes or links of a graph can be numbered. -/
def indices : Nat := 4294967295

def number (count : Nat) : Except Fault Unit :=
  if count ≤ indices then .ok () else .error .indexing

theorem number_eq_ok {count : Nat} : number count = .ok () ↔ count ≤ indices := by
  rw [number]
  split <;> simp_all

theorem number_eq_error {count : Nat} (many : ¬ count ≤ indices) :
    number count = .error .indexing :=
  if_neg many

def symbolSize : Nat := 1

def positionSize : Nat := 8

def cellSize : Nat := 8

def identifierSize : Nat := 16

end Storage

end LatticeSurgery
