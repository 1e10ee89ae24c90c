import LatticeSurgery.Text.Json.Reader
import Mathlib.Data.List.Basic
import Mathlib.Data.List.TakeDrop

namespace LatticeSurgery.Text.Json

/-! # Reading what was written

The text of a value is read back as the value, with whatever follows it left over. Values with
literals that are kept as they are, or with strings that stand for no text, are left aside. -/

/-! ## Numbers -/

/-- A number that stands before these characters ends there. -/
def Closes (rest : List Char) : Prop :=
  ∀ character, rest.head? = some character → character.isDigit = false ∧
    character ≠ '.' ∧ character ≠ 'e' ∧ character ≠ 'E'

theorem closes_nil : Closes [] := by
  intro character first
  cases first

theorem closes_cons {character : Char} {rest : List Char} (mark : character ∈ [',', ']', '\x7d']) :
    Closes (character :: rest) := by
  intro first isFirst
  cases isFirst
  simp only [List.mem_cons, List.not_mem_nil, or_false] at mark
  rcases mark with rfl | rfl | rfl <;> decide

theorem takeDigits_append {digits rest : List Char}
    (areDigits : ∀ digit ∈ digits, digit.isDigit = true) (closes : Closes rest) :
    takeDigits (digits ++ rest) = (digits, rest) := by
  rw [takeDigits, List.span_eq_takeWhile_dropWhile, List.takeWhile_append_of_pos areDigits,
    List.dropWhile_append_of_pos areDigits]
  cases rest with
  | nil => simp
  | cons character rest =>
      have other := (closes character rfl).1
      rw [List.takeWhile_cons_of_neg (by simp [other]),
        List.dropWhile_cons_of_neg (by simp [other]), List.append_nil]

/-- A number other than zero is not written with a zero in front. -/
theorem head?_toDigits_ne {number : Nat} (positive : number ≠ 0) :
    (Nat.toDigits 10 number).head? ≠ some '0' := by
  induction number using Nat.strongRecOn with
  | ind number induction =>
      by_cases small : number < 10
      · rw [Nat.toDigits_of_lt_base small, List.head?_cons, ne_eq, Option.some.injEq,
          Nat.digitChar_eq_zero]
        exact positive
      · have digits : Nat.toDigits 10 number =
            Nat.toDigits 10 (number / 10) ++ Nat.toDigits 10 (number % 10) := by
          rw [Nat.toDigits_append_toDigits (by decide) (by omega) (by omega),
            Nat.div_add_mod number 10]
        rw [digits, List.head?_append_of_ne_nil _ Nat.toDigits_ne_nil]
        exact induction (number / 10) (by omega) (by omega)

theorem isDigit_of_mem_toDigits {number : Nat} :
    ∀ digit ∈ Nat.toDigits 10 number, digit.isDigit = true :=
  fun _ member => Nat.isDigit_of_mem_toDigits (by decide) (by decide) member

/-- The digits of a number, the first one apart. -/
theorem exists_toDigits_eq (number : Nat) : ∃ first others,
    Nat.toDigits 10 number = first :: others ∧ first.isDigit = true ∧
      (number ≠ 0 → first ≠ '0') := by
  cases digits : Nat.toDigits 10 number with
  | nil => exact absurd digits Nat.toDigits_ne_nil
  | cons first others =>
      refine ⟨first, others, rfl, ?_, ?_⟩
      · apply isDigit_of_mem_toDigits
        rw [digits]
        exact List.mem_cons_self
      · intro positive isZero
        apply head?_toDigits_ne positive
        rw [digits, List.head?_cons, isZero]

theorem readWhole_toDigits (number : Nat) {rest : List Char} (closes : Closes rest) :
    readWhole (Nat.toDigits 10 number ++ rest) = some (Nat.toDigits 10 number, rest) := by
  by_cases isZero : number = 0
  · rw [isZero, Nat.toDigits_zero]
    rfl
  · rcases exists_toDigits_eq number with ⟨first, others, digits, _, ne⟩
    have taken : takeDigits (Nat.toDigits 10 number ++ rest) = (Nat.toDigits 10 number, rest) :=
      takeDigits_append isDigit_of_mem_toDigits closes
    rw [digits, List.cons_append] at taken ⊢
    rw [readWhole, taken]
    intro after same
    exact ne isZero (List.cons.inj same).1

theorem digitsValue_toDigits (number : Nat) : digitsValue (Nat.toDigits 10 number) = number :=
  Nat.ofDigitChars_toDigits (by decide) (by decide)

theorem readFraction_of_closes {rest : List Char} (closes : Closes rest) :
    readFraction rest = some ([], rest) := by
  rw [readFraction]
  rintro after rfl
  exact (closes '.' rfl).2.1 rfl

theorem readExponent_of_closes {rest : List Char} (closes : Closes rest) :
    readExponent rest = some ([], rest) := by
  cases rest with
  | nil => rfl
  | cons character rest =>
      have other := closes character rfl
      rw [readExponent]
      all_goals
        rintro after ⟨⟩
        simp at other

theorem readNumber_toDigits (number : Nat) {rest : List Char} (closes : Closes rest) :
    readNumber (Nat.toDigits 10 number ++ rest) = some (.integer number, rest) := by
  rcases exists_toDigits_eq number with ⟨first, others, digits, isDigit, _⟩
  have whole := readWhole_toDigits number closes
  have value := digitsValue_toDigits number
  rw [digits, List.cons_append] at whole ⊢
  rw [digits] at value
  have unsigned : first ≠ '-' := by
    rintro rfl
    cases isDigit
  simp [readNumber, whole, readFraction_of_closes closes, readExponent_of_closes closes,
    numberOf, value, unsigned]

theorem readNumber_negated {number : Nat} (positive : number ≠ 0) {rest : List Char}
    (closes : Closes rest) :
    readNumber ('-' :: (Nat.toDigits 10 number ++ rest)) = some (.integer (-number), rest) := by
  simp [readNumber, readWhole_toDigits number closes, readFraction_of_closes closes,
    readExponent_of_closes closes, numberOf, digitsValue_toDigits, positive]

theorem writeInteger_natCast (number : Nat) (rest : List Char) :
    writeInteger number rest = Nat.toDigits 10 number ++ rest := by
  rw [writeInteger, Int.toString_eq_repr, Int.repr_eq_if, if_pos (Int.natCast_nonneg number),
    Int.toNat_natCast, Nat.toList_repr]

theorem writeInteger_negated {number : Nat} (positive : number ≠ 0) (rest : List Char) :
    writeInteger (-number) rest = '-' :: (Nat.toDigits 10 number ++ rest) := by
  rw [writeInteger, Int.toString_eq_repr, Int.repr_eq_if, if_neg (by omega), Int.neg_neg,
    Int.toNat_natCast, String.toList_append, Nat.toList_repr]
  rfl

theorem readNumber_writeInteger (value : Int) {rest : List Char} (closes : Closes rest) :
    readNumber (writeInteger value rest) = some (.integer value, rest) := by
  rcases Int.eq_nat_or_neg value with ⟨number, rfl | rfl⟩
  · rw [writeInteger_natCast, readNumber_toDigits number closes]
  · by_cases isZero : number = 0
    · rw [isZero, Int.natCast_zero, Int.neg_zero]
      exact readNumber_toDigits 0 closes
    · rw [writeInteger_negated isZero, readNumber_negated isZero closes]

/-! ## Strings -/

theorem hexValue?_hexDigit {value : Nat} (small : value < 16) :
    hexValue? (hexDigit value) = some value := by
  revert value
  decide

theorem readEscape_control {character : Char} (control : character.toNat < 0x20)
    (rest : List Char) :
    readEscape ('u' :: '0' :: '0' :: hexDigit (character.toNat / 16) ::
      hexDigit (character.toNat % 16) :: rest) = some (some character, rest) := by
  have high : hexValue? (hexDigit (character.toNat / 16)) = some (character.toNat / 16) :=
    hexValue?_hexDigit (by omega)
  have low : hexValue? (hexDigit (character.toNat % 16)) = some (character.toNat % 16) :=
    hexValue?_hexDigit (by omega)
  have zero : hexValue? '0' = some 0 := rfl
  have unit : character.toNat / 16 * 16 + character.toNat % 16 = character.toNat := by omega
  have plain :
      isHighSurrogate character.toNat = false ∧ isLowSurrogate character.toNat = false := by
    simp only [isHighSurrogate, isLowSurrogate, Bool.and_eq_false_iff, decide_eq_false_iff_not]
    omega
  simp [readEscape, readCodePoint, readUnit, high, low, zero, unit, plain, Char.ofNat_toNat]

/-- A character is read back from its written form, whether it is escaped or not. -/
theorem readContent_writeEscaped {character : Char} {rest after : List Char}
    {content : List (Option Char)} {fuel : Nat}
    (read : readContent fuel rest = some (content, after)) :
    readContent (fuel + 1) (writeEscaped character rest) =
      some (some character :: content, after) := by
  have escaped {mark : List Char} (reads : readEscape mark = some (some character, rest)) :
      readContent (fuel + 1) ('\\' :: mark) = some (some character :: content, after) := by
    simp [readContent, reads, read]
  rw [writeEscaped.eq_def]
  split
  · exact escaped rfl
  · exact escaped rfl
  · exact escaped rfl
  · exact escaped rfl
  · exact escaped rfl
  · exact escaped rfl
  · exact escaped rfl
  · next notQuote notBackslash _ _ _ _ _ =>
      by_cases control : character.toNat < 0x20
      · rw [if_pos control]
        exact escaped (readEscape_control control rest)
      · rw [if_neg control, readContent, if_neg control, read]
        · rfl
        · exact notQuote
        · exact notBackslash

/-- Escaping never shortens a text. -/
theorem length_lt_writeEscaped (character : Char) (rest : List Char) :
    rest.length < (writeEscaped character rest).length := by
  rw [writeEscaped.eq_def]
  split
  all_goals try split
  all_goals
    simp only [List.length_cons]
    omega

theorem readContent_foldr (characters rest : List Char) {fuel : Nat}
    (enough : (characters.foldr writeEscaped ('"' :: rest)).length ≤ fuel) :
    readContent fuel (characters.foldr writeEscaped ('"' :: rest)) =
      some (characters.map some, rest) := by
  induction characters generalizing fuel with
  | nil =>
      rcases Nat.exists_eq_succ_of_ne_zero (Nat.ne_zero_of_lt enough) with ⟨less, rfl⟩
      rfl
  | cons character others induction =>
      have shorter := length_lt_writeEscaped character (others.foldr writeEscaped ('"' :: rest))
      rw [List.foldr_cons] at enough ⊢
      rcases Nat.exists_eq_succ_of_ne_zero (Nat.ne_zero_of_lt (Nat.lt_of_lt_of_le shorter enough))
        with ⟨less, rfl⟩
      exact readContent_writeEscaped (induction (by omega))

theorem mapM_id_some (characters : List Char) :
    (characters.map some).mapM id = some characters := by
  induction characters with
  | nil => rfl
  | cons character others induction => simp [induction]

theorem readString_writeString (content : String) (rest : List Char) {fuel : Nat}
    (enough : (writeString content rest).length ≤ fuel) :
    readString fuel (writeString content rest) = some (some content, rest) := by
  rw [writeString] at enough ⊢
  have read := readContent_foldr content.toList rest (Nat.le_of_succ_le enough)
  simp only [readString, read, Option.map_some, mapM_id_some, String.ofList_toList]

theorem length_lt_writeString (content : String) (rest : List Char) :
    rest.length < (writeString content rest).length := by
  have escaped (characters : List Char) :
      rest.length < (characters.foldr writeEscaped ('"' :: rest)).length := by
    induction characters with
    | nil => exact Nat.lt_succ_self _
    | cons character others induction =>
        exact Nat.lt_trans induction (length_lt_writeEscaped character _)
  exact Nat.lt_succ_of_lt (escaped content.toList)

theorem skipSpace_cons {character : Char} (visible : isSpace character = false)
    (rest : List Char) : skipSpace (character :: rest) = character :: rest := by
  rw [skipSpace, List.dropWhile_cons_of_neg (by simp [visible])]

theorem readName_writeString (name : String) (rest : List Char) {fuel : Nat}
    (enough : (writeString name (':' :: rest)).length ≤ fuel) :
    readName fuel (writeString name (':' :: rest)) = some (some name, rest) := by
  have read := readString_writeString name (':' :: rest) enough
  have quoted : skipSpace (writeString name (':' :: rest)) = writeString name (':' :: rest) :=
    skipSpace_cons rfl _
  have colon : skipSpace (':' :: rest) = ':' :: rest := skipSpace_cons rfl _
  simp [readName, quoted, read, colon]

/-! ## Values -/

/-- A value without literals that are kept as they are and without broken strings. -/
inductive Plain : Json → Prop
  | null : Plain .null
  | bool (value : Bool) : Plain (.bool value)
  | integer (value : Int) : Plain (.integer value)
  | string (content : String) : Plain (.string content)
  | array {items : List Json} (each : ∀ item ∈ items, Plain item) : Plain (.array items)
  | object {members : List (String × Json)} (each : ∀ member ∈ members, Plain member.2) :
      Plain (.object members)

/-- A value whose written form is read back, in front of any text that ends a number. The
written form is not empty and does not start with a space or a closing bracket. -/
structure ReadsBack (json : Json) : Prop where
  longer : ∀ rest, rest.length < (json.write rest).length
  first : ∀ rest, ∃ character others, json.write rest = character :: others ∧
    isSpace character = false ∧ character ≠ ']'
  read : ∀ rest fuel, Closes rest → (json.write rest).length < fuel →
    readValue fuel (json.write rest) = some (json, rest)

theorem length_lt_writeItems {items : List Json} (each : ∀ item ∈ items, item.ReadsBack)
    (rest : List Char) : rest.length < (writeItems items rest).length := by
  induction items with
  | nil => exact Nat.lt_succ_self _
  | cons item others induction =>
      rw [List.forall_mem_cons] at each
      have longer := each.1.longer (writeItems others rest)
      have shorter := induction each.2
      rw [writeItems, List.length_cons]
      omega

theorem closes_writeItems (items : List Json) (rest : List Char) :
    Closes (writeItems items rest) := by
  cases items with
  | nil => exact closes_cons (by decide)
  | cons item others => exact closes_cons (by decide)

theorem readItems_writeItems {items : List Json} (each : ∀ item ∈ items, item.ReadsBack)
    (rest : List Char) {fuel : Nat} (enough : (writeItems items rest).length < fuel) :
    readItems fuel (writeItems items rest) = some (items, rest) := by
  induction items generalizing fuel with
  | nil =>
      rcases Nat.exists_eq_succ_of_ne_zero (Nat.ne_zero_of_lt enough) with ⟨less, rfl⟩
      rfl
  | cons item others induction =>
      rcases Nat.exists_eq_succ_of_ne_zero (Nat.ne_zero_of_lt enough) with ⟨less, rfl⟩
      rw [List.forall_mem_cons] at each
      rw [writeItems, List.length_cons] at enough
      have longer := each.1.longer (writeItems others rest)
      have head := each.1.read _ less (closes_writeItems others rest) (by omega)
      have tail : readItems less (writeItems others rest) = some (others, rest) :=
        induction each.2 (by omega)
      rw [writeItems, readItems, skipSpace_cons rfl]
      simp [head, tail]

theorem length_lt_writeMembers {members : List (String × Json)}
    (each : ∀ member ∈ members, member.2.ReadsBack) (rest : List Char) :
    rest.length < (writeMembers members rest).length := by
  induction members with
  | nil => exact Nat.lt_succ_self _
  | cons member others induction =>
      rw [List.forall_mem_cons] at each
      have longer := each.1.longer (writeMembers others rest)
      have named := length_lt_writeString member.1
        (':' :: member.2.write (writeMembers others rest))
      have shorter := induction each.2
      rw [writeMembers, List.length_cons]
      rw [List.length_cons] at named
      omega

theorem closes_writeMembers (members : List (String × Json)) (rest : List Char) :
    Closes (writeMembers members rest) := by
  cases members with
  | nil => exact closes_cons (by decide)
  | cons member others => exact closes_cons (by decide)

theorem readMembers_writeMembers {members : List (String × Json)}
    (each : ∀ member ∈ members, member.2.ReadsBack) (rest : List Char) {fuel : Nat}
    (enough : (writeMembers members rest).length < fuel) :
    readMembers fuel (writeMembers members rest) =
      some (members.map fun member => (some member.1, member.2), rest) := by
  induction members generalizing fuel with
  | nil =>
      rcases Nat.exists_eq_succ_of_ne_zero (Nat.ne_zero_of_lt enough) with ⟨less, rfl⟩
      rfl
  | cons member others induction =>
      rcases Nat.exists_eq_succ_of_ne_zero (Nat.ne_zero_of_lt enough) with ⟨less, rfl⟩
      rw [List.forall_mem_cons] at each
      rw [writeMembers, List.length_cons] at enough
      have longer := each.1.longer (writeMembers others rest)
      have named := length_lt_writeString member.1
        (':' :: member.2.write (writeMembers others rest))
      rw [List.length_cons] at named
      have name := readName_writeString member.1 (member.2.write (writeMembers others rest))
        (show _ ≤ less by omega)
      have value := each.1.read _ less (closes_writeMembers others rest) (by omega)
      have tail : readMembers less (writeMembers others rest) =
          some (others.map fun member => (some member.1, member.2), rest) :=
        induction each.2 (by omega)
      rw [writeMembers, readMembers, skipSpace_cons rfl]
      simp [name, value, tail]

theorem objectOf_named (members : List (String × Json)) :
    objectOf (members.map fun member => (some member.1, member.2)) = .object members := by
  have named : (members.map fun member => (some member.1, member.2)).mapM
      (fun entry : Option String × Json => entry.1.map fun name => (name, entry.2)) =
        some members := by
    induction members with
    | nil => rfl
    | cons member others induction => simp [induction]
  rw [objectOf, named]

/-- What starts with none of the other marks is a number. -/
theorem readValue_of_number {fuel : Nat} {character : Char} {others : List Char}
    (visible : isSpace character = false)
    (number : character ∉ ['n', 't', 'f', '"', '[', '\x7b', ']']) :
    readValue (fuel + 1) (character :: others) = readNumber (character :: others) := by
  rw [readValue, skipSpace_cons visible]
  split
  all_goals simp_all

/-- An integer starts with a sign or a digit. -/
theorem exists_writeInteger_eq (value : Int) (rest : List Char) : ∃ character others,
    writeInteger value rest = character :: (others ++ rest) ∧
      isSpace character = false ∧ character ∉ ['n', 't', 'f', '"', '[', '\x7b', ']'] := by
  rcases Int.eq_nat_or_neg value with ⟨number, rfl | rfl⟩
  · rcases exists_toDigits_eq number with ⟨first, others, digits, isDigit, _⟩
    refine ⟨first, others, ?_, ?_, ?_⟩
    · rw [writeInteger_natCast, digits, List.cons_append]
    · simp only [isSpace, Bool.or_eq_false_iff, decide_eq_false_iff_not]
      refine ⟨⟨⟨?_, ?_⟩, ?_⟩, ?_⟩ <;> rintro rfl <;> cases isDigit
    · intro member
      simp only [List.mem_cons, List.not_mem_nil, or_false] at member
      rcases member with rfl | rfl | rfl | rfl | rfl | rfl | rfl <;> cases isDigit
  · by_cases isZero : number = 0
    · subst isZero
      exact ⟨'0', [], rfl, rfl, by decide⟩
    · exact ⟨'-', _, writeInteger_negated isZero rest, rfl, by decide⟩

/-! The writer, constructor by constructor. -/

theorem write_integer (value : Int) (rest : List Char) :
    (Json.integer value).write rest = writeInteger value rest := rfl

theorem write_array_cons (head : Json) (tail : List Json) (rest : List Char) :
    (Json.array (head :: tail)).write rest = '[' :: head.write (writeItems tail rest) := rfl

theorem write_object_cons (member : String × Json) (tail : List (String × Json))
    (rest : List Char) :
    (Json.object (member :: tail)).write rest =
      '\x7b' :: writeString member.1 (':' :: member.2.write (writeMembers tail rest)) := rfl

theorem readsBack_integer (value : Int) : (Json.integer value).ReadsBack where
  longer rest := by
    rcases exists_writeInteger_eq value rest with ⟨character, others, written, _⟩
    rw [write_integer, written, List.length_cons, List.length_append]
    omega
  first rest := by
    rcases exists_writeInteger_eq value rest with ⟨character, others, written, visible, mark⟩
    refine ⟨character, others ++ rest, written, visible, ?_⟩
    rintro rfl
    exact mark (by decide)
  read rest fuel closes enough := by
    rcases Nat.exists_eq_succ_of_ne_zero (Nat.ne_zero_of_lt enough) with ⟨less, rfl⟩
    rcases exists_writeInteger_eq value rest with ⟨character, others, written, visible, mark⟩
    rw [write_integer, written, readValue_of_number visible mark, ← written]
    exact readNumber_writeInteger value closes

theorem readsBack_string (content : String) : (Json.string content).ReadsBack where
  longer := length_lt_writeString content
  first rest := ⟨'"', _, rfl, rfl, by decide⟩
  read rest fuel _ enough := by
    rcases Nat.exists_eq_succ_of_ne_zero (Nat.ne_zero_of_lt enough) with ⟨less, rfl⟩
    have read := readString_writeString content rest (Nat.le_of_lt_succ enough)
    have quoted : (Json.string content).write rest =
      '"' :: content.toList.foldr writeEscaped ('"' :: rest) := rfl
    rw [writeString] at read
    rw [quoted, readValue, skipSpace_cons rfl]
    simp [read, stringOf]

theorem readsBack_array_cons {item : Json} {others : List Json} (head : item.ReadsBack)
    (tail : ∀ item ∈ others, item.ReadsBack) : (Json.array (item :: others)).ReadsBack where
  longer rest := by
    have headLonger := head.longer (writeItems others rest)
    have tailLonger := length_lt_writeItems tail rest
    rw [write_array_cons, List.length_cons]
    omega
  first rest := ⟨'[', _, rfl, rfl, by decide⟩
  read rest fuel _ enough := by
    rcases Nat.exists_eq_succ_of_ne_zero (Nat.ne_zero_of_lt enough) with ⟨less, rfl⟩
    rw [write_array_cons, List.length_cons] at enough
    have headLonger := head.longer (writeItems others rest)
    have headRead := head.read _ less (closes_writeItems others rest) (by omega)
    have tailRead := readItems_writeItems tail rest (show _ < less by omega)
    rcases head.first (writeItems others rest) with ⟨first, after, written, visible, mark⟩
    rw [written] at headRead
    rw [write_array_cons, written, readValue, skipSpace_cons rfl]
    simp [skipSpace_cons visible, mark, headRead, tailRead]

theorem readsBack_object_cons {member : String × Json} {others : List (String × Json)}
    (head : member.2.ReadsBack) (tail : ∀ member ∈ others, member.2.ReadsBack) :
    (Json.object (member :: others)).ReadsBack where
  longer rest := by
    have headLonger := head.longer (writeMembers others rest)
    have named := length_lt_writeString member.1
      (':' :: member.2.write (writeMembers others rest))
    have tailLonger := length_lt_writeMembers tail rest
    rw [List.length_cons] at named
    rw [write_object_cons, List.length_cons]
    omega
  first rest := ⟨'\x7b', _, rfl, rfl, by decide⟩
  read rest fuel _ enough := by
    rcases Nat.exists_eq_succ_of_ne_zero (Nat.ne_zero_of_lt enough) with ⟨less, rfl⟩
    rw [write_object_cons, List.length_cons] at enough
    have headLonger := head.longer (writeMembers others rest)
    have named := length_lt_writeString member.1
      (':' :: member.2.write (writeMembers others rest))
    rw [List.length_cons] at named
    have nameRead := readName_writeString member.1 (member.2.write (writeMembers others rest))
      (show _ ≤ less by omega)
    have headRead := head.read _ less (closes_writeMembers others rest) (by omega)
    have tailRead := readMembers_writeMembers tail rest (show _ < less by omega)
    have objects := objectOf_named (member :: others)
    rw [List.map_cons] at objects
    rw [writeString] at nameRead
    rw [write_object_cons, writeString, readValue, skipSpace_cons rfl]
    simp [skipSpace_cons, isSpace, nameRead, headRead, tailRead, objects]

/-- Values that are always written in the same way. -/
theorem readsBack_fixed {json : Json} (first : Char) (others : List Char)
    (written : ∀ rest, json.write rest = first :: (others ++ rest))
    (visible : isSpace first = false) (mark : first ≠ ']')
    (read : ∀ rest fuel, readValue (fuel + 1) (first :: (others ++ rest)) = some (json, rest)) :
    json.ReadsBack where
  longer rest := by
    rw [written, List.length_cons, List.length_append]
    omega
  first rest := ⟨first, others ++ rest, written rest, visible, mark⟩
  read rest fuel _ enough := by
    rcases Nat.exists_eq_succ_of_ne_zero (Nat.ne_zero_of_lt enough) with ⟨less, rfl⟩
    rw [written]
    exact read rest less

/-- Values without literals and broken strings are read back. -/
theorem Plain.readsBack {json : Json} (plain : json.Plain) : json.ReadsBack := by
  induction plain with
  | null => exact readsBack_fixed 'n' "ull".toList (fun _ => rfl) rfl (by decide) fun _ _ => rfl
  | bool value =>
      cases value with
      | true => exact readsBack_fixed 't' "rue".toList (fun _ => rfl) rfl (by decide) fun _ _ => rfl
      | false =>
          exact readsBack_fixed 'f' "alse".toList (fun _ => rfl) rfl (by decide) fun _ _ => rfl
  | integer value => exact readsBack_integer value
  | string content => exact readsBack_string content
  | @array items each induction =>
      cases items with
      | nil => exact readsBack_fixed '[' [']'] (fun _ => rfl) rfl (by decide) fun _ _ => rfl
      | cons item others =>
          rw [List.forall_mem_cons] at induction
          exact readsBack_array_cons induction.1 induction.2
  | @object members each induction =>
      cases members with
      | nil =>
          exact readsBack_fixed '\x7b' ['\x7d'] (fun _ => rfl) rfl (by decide) fun _ _ => rfl
      | cons member others =>
          rw [List.forall_mem_cons] at induction
          exact readsBack_object_cons induction.1 induction.2

/-- The text of a value is read as the value. -/
theorem parse?_text {json : Json} (plain : json.Plain) : parse? json.text = some json := by
  have read : readValue ((json.write []).length + 1) (json.write []) = some (json, []) :=
    plain.readsBack.read [] _ closes_nil (Nat.lt_succ_self _)
  rw [parse?, text, String.toList_ofList]
  dsimp only
  rw [read]
  rfl

end LatticeSurgery.Text.Json
