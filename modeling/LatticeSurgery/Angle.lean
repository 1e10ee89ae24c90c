import LatticeSurgery.Word

namespace LatticeSurgery

/-! Rotation angles in units of π. An angle is stored as a pair of 64-bit words,
and the pair is kept as it was given: it need not be in lowest terms and its
denominator may be negative. The rational number that the pair stands for is its
`value`, while the text and the sign of an angle look at the stored pair. -/

structure Angle where
  numer : Int
  denom : Int
  numer_fits : Word.Fits64 numer := by decide
  denom_fits : Word.Fits64 denom := by decide
  denom_ne_zero : denom ≠ 0 := by decide
deriving DecidableEq, Repr

namespace Angle

def value (angle : Angle) : Rat := Rat.divInt angle.numer angle.denom

def Same (left right : Angle) : Prop := left.value = right.value

instance (left right : Angle) : Decidable (Same left right) :=
  inferInstanceAs (Decidable (left.value = right.value))

def zero : Angle := { numer := 0, denom := 1 }

def whole : Angle := { numer := 1, denom := 1 }

def half : Angle := { numer := 1, denom := 2 }

def quarter : Angle := { numer := 1, denom := 4 }

def negQuarter : Angle := { numer := -1, denom := 4 }

def eighth : Angle := { numer := 1, denom := 8 }

def text (angle : Angle) : String :=
  if angle.denom = 1 then toString angle.numer
  else toString angle.numer ++ "/" ++ toString angle.denom

/-! Construction. `ofPair?` keeps a pair as it is. `make` brings a pair to lowest
terms with a positive denominator. Moving the sign of the denominator can leave
the word range, since the least word has no negative. -/

def ofPair? (numer denom : Int) : Option Angle :=
  if fits : Word.Fits64 numer ∧ Word.Fits64 denom ∧ denom ≠ 0 then
    some ⟨numer, denom, fits.1, fits.2.1, fits.2.2⟩
  else none

def ofWords (numer denom : Int) : Except Fault Angle :=
  match ofPair? numer denom with
  | some angle => .ok angle
  | none => .error .overflow

def make (numer denom : Int) : Except Fault Angle :=
  if numer = 0 then .ok zero
  else if numer = denom then .ok whole
  else
    let divisor : Int := Int.gcd numer denom
    let reducedNumer := numer / divisor
    let reducedDenom := denom / divisor
    if reducedDenom < 0 then ofWords (-reducedNumer) (-reducedDenom)
    else ofWords reducedNumer reducedDenom

theorem ofPair?_self (angle : Angle) :
    ofPair? angle.numer angle.denom = some angle := by
  simp [ofPair?, angle.numer_fits, angle.denom_fits, angle.denom_ne_zero]

/-! Sign. Only the stored numerator is looked at and only it is negated. -/

def isZero (angle : Angle) : Bool := angle.numer = 0

def isNegative (angle : Angle) : Bool := angle.numer < 0

def neg (angle : Angle) : Except Fault Angle := ofWords (-angle.numer) angle.denom

def abs (angle : Angle) : Except Fault Angle :=
  if angle.isNegative then angle.neg else .ok angle

/-! Comparison. Angles are ordered by value, except that two angles with the same
numerator are ordered by their denominators alone, whatever signs those have. The
order is found with words: an angle is divided into its quotient and remainder,
and when the quotients agree the denominators are divided by the remainders. The
least word has no quotient by `-1`. -/

def quotient (angle : Angle) : Int := Int.fdiv angle.numer angle.denom

def remainder (angle : Angle) : Int := Int.fmod angle.numer angle.denom

def hasQuotient (numer denom : Int) : Bool := numer ≠ -Word.limit64 || denom ≠ -1

def quotientsFit (left right : Angle) : Bool :=
  hasQuotient left.numer left.denom && hasQuotient right.numer right.denom

def remaindersFit (left right : Angle) : Bool :=
  left.quotient ≠ right.quotient || left.remainder = 0 || right.remainder = 0 ||
    left.remainder = right.remainder ||
    (hasQuotient left.denom left.remainder && hasQuotient right.denom right.remainder)

def valueOrder (left right : Angle) : Ordering :=
  if left.value < right.value then .lt
  else if left.value = right.value then .eq
  else .gt

/-- The order of two angles with the numerator `numer`. -/
def denomOrder (numer leftDenom rightDenom : Int) : Ordering :=
  if numer = 0 then .eq
  else if decide (leftDenom < rightDenom) = decide (numer < 0) then .lt
  else .gt

def order (left right : Angle) : Except Fault Ordering :=
  if left.denom = right.denom then .ok (valueOrder left right)
  else if left.numer = right.numer then .ok (denomOrder left.numer left.denom right.denom)
  else if quotientsFit left right && remaindersFit left right then .ok (valueOrder left right)
  else .error .overflow

def isSame (left right : Angle) : Except Fault Bool := do
  return (← left.order right).isEq

/-! The basic rotation set: halves, quarters and eighths of either sign. -/

def hasMagnitude (angle magnitude : Angle) : Except Fault Bool := do
  return decide (Same (← angle.abs) magnitude)

def isHalf (angle : Angle) : Except Fault Bool := angle.hasMagnitude half

def isQuarter (angle : Angle) : Except Fault Bool := angle.hasMagnitude quarter

def isEighth (angle : Angle) : Except Fault Bool := angle.hasMagnitude eighth

def isBasic (angle : Angle) : Except Fault Bool := do
  if ← angle.isHalf then return true
  if ← angle.isQuarter then return true
  angle.isEighth

/-! Reduction modulo 2. The representative is the one in `[0, 2)`. When its
numerator does not fit a word, the representative in `(-2, 0)` is taken. -/

def periodicNumer (numer denom : Int) : Int :=
  let reduced := numer % (2 * denom)
  if Word.Fits64 reduced then reduced
  else if Word.Fits64 (reduced - 2 * denom) then reduced - 2 * denom
  else numer

def normalized (angle : Angle) : Except Fault Angle :=
  make (periodicNumer angle.numer angle.denom) angle.denom

/-! Dyadic angles are sums of powers of one half. The term `1` is a rotation by π
and only contributes a global phase, so it is left out. -/

def powerOfTwo (exponent : Nat) : Int := Nat.pow 2 exponent

/-- The exponent of a stored denominator that is a power of two. -/
def dyadicExponent? (angle : Angle) : Option Nat :=
  let exponent := angle.denom.toNat.log2
  if angle.denom = powerOfTwo exponent then some exponent else none

/-- The powers of one half that add up to `numer / denom`, largest first, among
those for the bits `exponent` down to zero of the numerator. -/
def binaryTerms (numer denom : Int) (exponent : Nat) : Except Fault (List Angle) := do
  let bits := (List.range (exponent + 1)).reverse.filter fun bit =>
    numer / powerOfTwo bit % 2 = 1
  let terms ← bits.mapM fun bit => make (powerOfTwo bit) denom
  return terms.filter fun term => !decide (Same term whole)

def dyadicTerms (angle : Angle) : Except Fault (Option (List Angle)) :=
  match angle.dyadicExponent? with
  | none => .ok none
  | some exponent => do
      let reduced ← angle.normalized
      return some (← binaryTerms reduced.numer reduced.denom exponent)

end Angle

end LatticeSurgery
