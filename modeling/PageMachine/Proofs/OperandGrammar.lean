import PageMachine.Instruction
import PageMachine.Proofs.NumeralGrammar
import PageMachine.Source.Operand

/-!
# How operands are written

A constant is written in one of three shapes, and no other text is one: a signed decimal numeral
behind a number sign, a hexadecimal numeral behind an x, or one behind an x and a minus. The number
has to fit 32 bits; the least such number cannot be written in hexadecimal, since the magnitude is
read without its sign. A literal is a constant behind an equals sign that fits a word in either
reading, and a register is an R and a signed numeral.

Which of the errors a text is refused with is left out.
-/

namespace PageMachine

open Text

/-- Whether a text is a constant for a number. -/
inductive IsConstant : List Char → Int → Prop
  | decimal {digits : List Char} {value : Int} (h : IsSignedNumeral digits value)
      (hlow : -2147483648 ≤ value) (hhigh : value ≤ 2147483647) : IsConstant ('#' :: digits) value
  | hex {digits : List Char} {n : Nat} (h : IsNumeral 16 digits n) (hhigh : n ≤ 2147483647) :
      IsConstant ('x' :: digits) n
  | negativeHex {digits : List Char} {n : Nat} (h : IsNumeral 16 digits n)
      (hhigh : n ≤ 2147483647) : IsConstant ('x' :: '-' :: digits) (-(n : Int))

/-- Whether a text is a literal for a number: a constant that fits a word, signed or unsigned. -/
inductive IsLiteralText : List Char → Int → Prop
  | intro {constant : List Char} {value : Int} (h : IsConstant constant value)
      (hlow : -32768 ≤ value) (hhigh : value ≤ 65535) : IsLiteralText ('=' :: constant) value

/-- Hexadecimal digits are read as the number of the numeral, if it fits. -/
theorem readHexMagnitude_eq_some_iff {digits : List Char} {n : Nat} :
    readHexMagnitude digits = some n ↔ IsNumeral 16 digits n ∧ n ≤ 2147483647 := by
  unfold readHexMagnitude
  split
  · exact iff_of_false nofun fun h => h.1.1 rfl
  · next hne =>
    have hoption : (readDigits 16 maxInt32 0 digits).toOption = some n ↔
        readDigits 16 maxInt32 0 digits = .ok n := by
      cases readDigits 16 maxInt32 0 digits <;> simp [Except.toOption]
    rw [hoption, readDigits_eq_ok_iff (by decide), IsNumeral, and_iff_right hne, and_comm]
    rfl

/-- Behind a number sign stands a signed numeral. -/
theorem isConstant_decimal_iff {digits : List Char} {value : Int} :
    IsConstant ('#' :: digits) value ↔
      IsSignedNumeral digits value ∧ -2147483648 ≤ value ∧ value ≤ 2147483647 := by
  constructor
  · rintro ⟨h, hlow, hhigh⟩
    exact ⟨h, hlow, hhigh⟩
  · rintro ⟨h, hlow, hhigh⟩
    exact .decimal h hlow hhigh

/-- Behind an x and a minus stands a numeral, whose number is taken from zero. -/
theorem isConstant_negativeHex_iff {digits : List Char} {value : Int} :
    IsConstant ('x' :: '-' :: digits) value ↔
      ∃ n : Nat, (IsNumeral 16 digits n ∧ n ≤ 2147483647) ∧ value = -(n : Int) := by
  constructor
  · rintro (_ | ⟨h, -⟩ | ⟨h, hhigh⟩)
    · exact absurd h (not_isNumeral_sign (.inr rfl))
    · exact ⟨_, ⟨h, hhigh⟩, rfl⟩
  · rintro ⟨n, ⟨h, hhigh⟩, rfl⟩
    exact .negativeHex h hhigh

/-- Behind an x alone stands a numeral. -/
theorem isConstant_hex_iff {digits : List Char} {value : Int}
    (hminus : ∀ rest, digits ≠ '-' :: rest) :
    IsConstant ('x' :: digits) value ↔
      ∃ n : Nat, (IsNumeral 16 digits n ∧ n ≤ 2147483647) ∧ value = n := by
  constructor
  · rintro (_ | ⟨h, hhigh⟩ | _)
    · exact ⟨_, ⟨h, hhigh⟩, rfl⟩
    · exact absurd rfl (hminus _)
  · rintro ⟨n, ⟨h, hhigh⟩, rfl⟩
    exact .hex h hhigh

/-- A text is read as a constant exactly if it is one, and as the number that it is one for. -/
theorem parseConstant_eq_ok_iff {text : String} {value : Int} :
    parseConstant text = .ok value ↔ IsConstant text.toList value := by
  unfold parseConstant
  split
  · next digits htext =>
    rw [htext, isConstant_decimal_iff, ← readInt32_eq_ok_iff]
    cases readInt32 digits <;> simp
  · next digits htext =>
    rw [htext, isConstant_negativeHex_iff]
    simp only [← readHexMagnitude_eq_some_iff]
    cases readHexMagnitude digits <;> simp [eq_comm]
  · next digits hminus htext =>
    rw [htext, isConstant_hex_iff hminus]
    simp only [← readHexMagnitude_eq_some_iff]
    cases readHexMagnitude digits <;> simp [eq_comm]
  · next hdecimal hnegative hhex =>
    refine iff_of_false nofun fun h => ?_
    generalize hshape : text.toList = shape at h
    cases h with
    | decimal => exact hdecimal _ hshape
    | hex => exact hhex _ hshape
    | negativeHex => exact hnegative _ hshape

/-- A text is read as a literal exactly if it is one, and as the word that its number is cut to. -/
theorem parseLiteral_eq_ok_iff {text : String} {word : Word} :
    parseLiteral text = .ok word ↔
      ∃ value, IsLiteralText text.toList value ∧ word = BitVec.ofInt 16 value := by
  unfold parseLiteral
  split
  · next constant htext =>
    rw [htext]
    have hshape : ∀ {value}, IsLiteralText ('=' :: constant) value ↔
        parseConstant (String.ofList constant) = .ok value ∧ -32768 ≤ value ∧ value ≤ 65535 := by
      intro value
      rw [parseConstant_eq_ok_iff, String.toList_ofList]
      constructor
      · rintro ⟨h, hlow, hhigh⟩
        exact ⟨h, hlow, hhigh⟩
      · rintro ⟨h, hlow, hhigh⟩
        exact .intro h hlow hhigh
    simp only [hshape]
    cases parseConstant (String.ofList constant) with
    | error error => simp
    | ok value =>
      by_cases hfits : -32768 ≤ value ∧ value ≤ 65535 <;> simp [hfits, eq_comm]
  · next hequals =>
    refine iff_of_false nofun ?_
    rintro ⟨value, h, -⟩
    generalize hshape : text.toList = shape at h
    cases h
    exact hequals _ hshape

/-- Whether a text spells a register: an R and a signed numeral for its number. -/
inductive SpellsRegister : List Char → Register → Prop
  | intro {digits : List Char} {register : Register}
      (h : IsSignedNumeral digits (register.val : Int)) : SpellsRegister ('R' :: digits) register

/-- A number is read from an R and a signed numeral for it that fits 32 bits. -/
theorem parseRegister_eq_ok_iff {text : String} {value : Int} :
    parseRegister text = .ok value ↔ ∃ digits, text.toList = 'R' :: digits ∧
      IsSignedNumeral digits value ∧ -2147483648 ≤ value ∧ value ≤ 2147483647 := by
  unfold parseRegister
  split
  · next digits htext =>
    simp only [htext, List.cons.injEq, true_and, exists_eq_left', ← readInt32_eq_ok_iff]
    cases readInt32 digits <;> simp
  · next hother =>
    refine iff_of_false nofun ?_
    rintro ⟨digits, htext, -⟩
    exact hother digits htext

/-- The number of a register is read from its spellings. -/
theorem parseRegister_eq_ok_iff_spells {text : String} {register : Register} :
    parseRegister text = .ok (register.val : Int) ↔ SpellsRegister text.toList register := by
  rw [parseRegister_eq_ok_iff]
  constructor
  · rintro ⟨digits, htext, hnumeral, -⟩
    rw [htext]
    exact .intro hnumeral
  · intro h
    generalize hshape : text.toList = shape at h
    cases h with
    | intro hnumeral => exact ⟨_, rfl, hnumeral, by omega, by omega⟩

end PageMachine
