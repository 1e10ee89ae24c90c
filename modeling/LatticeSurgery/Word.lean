import LatticeSurgery.Fault

namespace LatticeSurgery

/-! Signed machine words. Integers are computed exactly and then checked against
the range of the word that has to hold them. -/

namespace Word

def limit64 : Int := 9223372036854775808

def Fits64 (value : Int) : Prop := -limit64 ≤ value ∧ value < limit64

instance (value : Int) : Decidable (Fits64 value) :=
  inferInstanceAs (Decidable (_ ∧ _))

def limit32 : Int := 2147483648

def Fits32 (value : Int) : Prop := -limit32 ≤ value ∧ value < limit32

instance (value : Int) : Decidable (Fits32 value) :=
  inferInstanceAs (Decidable (_ ∧ _))

/-- An exact result as a 32-bit word. -/
def check32 (value : Int) : Except Fault Int :=
  if Fits32 value then .ok value else .error .overflow

/-- The 32-bit word with the last bits of a number. -/
def wrap32 (value : Int) : Int := value.bmod 4294967296

end Word

end LatticeSurgery
