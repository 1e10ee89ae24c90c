namespace LatticeSurgery.Text

/-! The characters with the Unicode property `White_Space`, as inclusive ranges
of code points. -/

def blankRanges : List (Nat × Nat) :=
  [(0x09, 0x0D), (0x20, 0x20), (0x85, 0x85), (0xA0, 0xA0), (0x1680, 0x1680),
    (0x2000, 0x200A), (0x2028, 0x2029), (0x202F, 0x202F), (0x205F, 0x205F),
    (0x3000, 0x3000)]

def isBlank (character : Char) : Bool :=
  blankRanges.any fun (first, last) =>
    first ≤ character.toNat && character.toNat ≤ last

example : isBlank '\t' ∧ isBlank ' ' ∧ isBlank '\u3000' ∧ ¬ isBlank '\u200b' := by decide

end LatticeSurgery.Text
