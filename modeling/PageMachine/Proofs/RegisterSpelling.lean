import PageMachine.Proofs.DecodedStatement

/-!
# How registers are written

A register is an R and a numeral. The numeral is read as any signed number, and the range of the slot
then leaves the numbers from 0 to 7, so that besides the names of the eight registers there are
spellings of them with a sign and with zeros in front. An operand that begins with an R and spells no
register leaves no program, wherever in an instruction it stands; one that spells a register is held
in its field, also in an instruction of which another module supplies an operand.

Operands of directives are left out.
-/

namespace PageMachine

open Text

/-- The name of a register. -/
def registerName (register : Register) : String :=
  "R" ++ toString register.val

/-- A decimal digit is written in one way. -/
theorem Text.IsDigit.eq_digitChar {c : Char} {n : Nat} (h : IsDigit 10 c n) : c = n.digitChar := by
  have hsmall : ∀ m : Fin 128, ∀ n : Fin 10,
      "0123456789ABCDEF".toList[n.val]? = some (Char.ofNat m).toUpper →
        Char.ofNat m = n.val.digitChar := by
    decide +kernel
  have hdigit := hsmall ⟨c.toNat, h.lt⟩ ⟨n, h.1⟩
  rw [Char.ofNat_toNat] at hdigit
  exact hdigit h.2

/-- A numeral of one character is the digit of its number. -/
theorem Text.IsSignedNumeral.eq_digitChar {c : Char} {n : Nat} (h : IsSignedNumeral [c] n) :
    c = n.digitChar := by
  generalize hvalue : (n : Int) = value at h
  cases h with
  | plain hnumeral =>
    obtain ⟨-, digits, hdigits, hsum⟩ := hnumeral
    obtain ⟨digit, others, hdigit, hothers, rfl⟩ := List.forall₂_cons_left_iff.mp hdigits
    obtain rfl := List.forall₂_nil_left_iff.mp hothers
    obtain rfl : n = digit := by
      rw [Nat.ofDigits_singleton] at hsum
      omega
    exact hdigit.eq_digitChar
  | plus hnumeral => exact absurd rfl hnumeral.1
  | minus hnumeral => exact absurd rfl hnumeral.1

/-- A register is spelled by its name exactly if there are no more than two characters. -/
theorem SpellsRegister.eq_name_iff {text : String} {register : Register}
    (h : SpellsRegister text.toList register) :
    text = registerName register ↔ text.length = 2 := by
  have hname : ∀ register : Register,
      (registerName register).toList = ['R', register.val.digitChar] := by
    decide
  rw [← String.toList_inj, hname, ← String.length_toList]
  generalize text.toList = shape at h
  cases h with
  | intro hnumeral =>
    constructor
    · intro heq
      rw [heq]
      rfl
    · intro hlength
      obtain ⟨c, rfl⟩ := List.length_eq_one_iff.mp (Nat.succ.inj hlength)
      rw [hnumeral.eq_digitChar]

/-- An operand that begins with an R is read as a register. -/
theorem Operand.kind_of_head?_eq {text : String} (h : text.toList.head? = some 'R') :
    (Operand.mk text).kind = .register := by
  obtain ⟨digits, htext⟩ := List.head?_eq_some_iff.mp h
  rw [kind, htext]
  rfl

/-- Every operand of an instruction stands in a slot. -/
theorem Content.Formed.exists_field {definition : InstructionDefinition} {operands : List Operand}
    (hformed : (machine definition operands).Formed) {operand : Operand}
    (hoperand : operand ∈ operands) :
    ∃ field ∈ definition.operands.zip operands, field.2 = operand := by
  have hfits := hformed.2.1
  simp only [InstructionDefinition.fits, List.length_map, Bool.and_eq_true, beq_iff_eq] at hfits
  rw [← List.map_snd_zip (Nat.le_of_eq hfits.1.symm)] at hoperand
  exact List.mem_map.mp hoperand

/-- A register operand resolves exactly if it spells a register, and to the number of that. -/
theorem EncodingContext.resolve_register_iff {context : EncodingContext} {address : Word}
    {slot : OperandSlot} {operand : Operand} {held : FieldValue}
    (hslot : slot ∈ InstructionSet.slots) (haccepts : slot.accepts .register = true)
    (hkind : operand.kind = .register) :
    context.resolve address slot operand = .ok held ↔
      ∃ register, SpellsRegister operand.text.toList register ∧
        held = .number (register.val : Int) false := by
  obtain ⟨-, hmin, hmax, -⟩ := InstructionSet.register_of_mem_slots slot hslot haccepts
  constructor
  · exact fun h => (resolves_of_resolve h).exists_spellsRegister hslot haccepts hkind
  · rintro ⟨register, hspells, rfl⟩
    have hrange : slot.InRange (register.val : Int) := by
      have hsmall := register.isLt
      exact ⟨by omega, by omega⟩
    have hparse := parseRegister_eq_ok_iff_spells.mpr hspells
    simp [resolve, hkind, hparse, OperandSlot.check, hrange, bind, Except.bind, pure, Except.pure]

namespace Layout

variable {layout : Layout} {program : Program}

/-- An operand that stands in a slot for registers spells one, and the word holds its number in the
slot. -/
theorem Yields.exists_spellsRegister (hyields : layout.Yields program) (hsound : layout.Sound)
    {statement : Statement} (hstatement : statement ∈ layout.statements)
    {definition : InstructionDefinition} {operands : List Operand}
    (hcontent : statement.content = .machine definition operands)
    {field : OperandSlot × Operand} (hfield : field ∈ definition.operands.zip operands)
    (haccepts : field.1.accepts .register = true) :
    ∃ register word, SpellsRegister field.2.text.toList register ∧
      (statement.encode (layout.context program.symbols)).words = [word] ∧
      (field.1.field.extract word.value).toNat = register.val := by
  have hformed := hsound.formed statement hstatement
  rw [hcontent] at hformed
  have hslot := (InstructionSet.slot_of_mem_table definition hformed.1 field.1
    (List.of_mem_zip hfield).1).1
  obtain ⟨haccepted, -, -, hrole, hwidth⟩ :=
    InstructionSet.register_of_mem_slots field.1 hslot haccepts
  have hkind : field.2.kind = .register := by
    have hfits := ((hformed.pairs_spec rfl).1 field hfield).1
    simpa [OperandSlot.accepts, haccepted] using hfits
  obtain ⟨held, hheld⟩ := hyields.exists_resolve hstatement hcontent field hfield
  obtain ⟨register, hspells, rfl⟩ :=
    (EncodingContext.resolve_register_iff hslot haccepts hkind).mp hheld
  obtain ⟨word, hwords, hmade⟩ := hyields.exists_madeFrom hsound hstatement hcontent
  refine ⟨register, word, hspells, hwords, ?_⟩
  have hextract := hmade.extract field hfield
  rw [EncodingContext.number, hheld, hwidth] at hextract
  dsimp only at hextract
  rw [hrole, hextract, ← Int.ofNat_inj]
  have hsmall := register.isLt
  exact BitRange.rest_of_lt (by omega) (by omega)

end Layout

/-- In an accepted program every operand in a slot for registers is an R and a signed numeral from 0
to 7, the slot holds this number, and the operand is the name of the register exactly if it has two
characters. A line with a mnemonic and an operand that begins with an R and spells no register leaves
no program. -/
theorem spellsRegister_of_assemble (hint source : String) :
    (∀ program, assemble hint source = .ok program → ∀ encoded ∈ program.statements,
      ∀ definition operands, encoded.statement.content = .machine definition operands →
        ∀ field ∈ definition.operands.zip operands, field.1.accepts .register = true →
          ∃ register word, SpellsRegister field.2.text.toList register ∧
            (field.2.text = registerName register ↔ field.2.text.length = 2) ∧
            encoded.words = [word] ∧
            (field.1.field.extract word.value).toNat = register.val) ∧
    ∀ line ∈ SourceLine.ofSource source, InstructionSet.isMnemonic line.operation = true →
      ∀ text ∈ line.operands, text.toList.head? = some 'R' →
        (∀ register, ¬SpellsRegister text.toList register) →
          ∃ errors, assemble hint source = .error errors := by
  constructor
  · intro program hprogram encoded hencoded definition operands hcontent field hfield haccepts
    have hyields := yields_of_assemble hprogram
    have hsound := Layout.sound_ofSource hyields.errors
    rw [hyields.statements] at hencoded
    obtain ⟨statement, hstatement, rfl⟩ := List.mem_map.mp hencoded
    rw [Statement.statement_encode] at hcontent
    obtain ⟨register, word, hspells, hword⟩ :=
      hyields.exists_spellsRegister hsound hstatement hcontent hfield haccepts
    exact ⟨register, word, hspells, hspells.eq_name_iff, hword⟩
  · intro line hline hmnemonic text htext hfirst hnone
    cases hprogram : assemble hint source with
    | error errors => exact ⟨errors, rfl⟩
    | ok program =>
      have hyields := yields_of_assemble hprogram
      have hsound := Layout.sound_ofSource hyields.errors
      obtain ⟨statement, hstatement, before, after, -, hstep, -, -, -⟩ :=
        Layout.exists_statement_of_mem (Layout.forall₂_laysOut_ofSource hyields.errors) hline
      obtain ⟨definition, -, -, hcontent⟩ := hstep.machine_of_isMnemonic hmnemonic
      have hformed := hsound.formed statement hstatement
      rw [hcontent] at hformed
      obtain ⟨field, hfield, htextField⟩ := hformed.exists_field (List.mem_map_of_mem htext)
      have haccepts := ((hformed.pairs_spec rfl).1 field hfield).1
      have hkind : (Operand.mk text).kind = .register := Operand.kind_of_head?_eq hfirst
      rw [htextField, hkind] at haccepts
      obtain ⟨register, -, hspells, -⟩ :=
        hyields.exists_spellsRegister hsound hstatement hcontent hfield haccepts
      rw [htextField] at hspells
      exact absurd hspells (hnone register)

/-- The lines of a program that inverts a register. -/
def invertingLines (text : String) : List String :=
  ["         .ORIG", "         NOT     R0," ++ text, "         .END"]

/-- The program that inverts a register written with a sign, and its module. -/
def inverting : Build "main" (invertingLines "R+1") :=
  .ofLines (by decide +kernel)

/-- The second register of its instruction is as it was written. -/
theorem exists_inverting_statement : ∃ encoded ∈ inverting.program.statements,
    encoded.statement.content =
      .machine ⟨"NOT", 0x9000, [InstructionSet.target, InstructionSet.source]⟩
        [⟨"R0"⟩, ⟨"R+1"⟩] := by
  decide +kernel

/-- A register may be written with a sign; the number 8 is refused. -/
theorem spellsRegister_invertingLines :
    (∃ program encoded word, assemble "main" (Text.unlines (invertingLines "R+1")) = .ok program ∧
      encoded ∈ program.statements ∧ encoded.words = [word] ∧ SpellsRegister "R+1".toList 1 ∧
      (InstructionSet.source.field.extract word.value).toNat = 1) ∧
    ∃ errors, assemble "main" (Text.unlines (invertingLines "R8")) = .error errors := by
  constructor
  · obtain ⟨encoded, hencoded, hcontent⟩ := exists_inverting_statement
    obtain ⟨register, word, hspells, -, hwords, hextract⟩ :=
      (spellsRegister_of_assemble _ _).1 _ inverting.assembled encoded hencoded _ _ hcontent
        (InstructionSet.source, ⟨"R+1"⟩) (by simp) (by decide)
    have hone : parseRegister "R+1" = .ok 1 := by decide
    have hsame := hone.symm.trans (parseRegister_eq_ok_iff_spells.mpr hspells)
    obtain rfl : register = 1 := Fin.ext (Int.ofNat_inj.mp (Except.ok.inj hsame).symm)
    exact ⟨_, encoded, word, inverting.assembled, hencoded, hwords, hspells, hextract⟩
  · have hline : (⟨"", "NOT", ["R0", "R8"]⟩ : SourceLine) ∈
        SourceLine.ofSource (Text.unlines (invertingLines "R8")) := by
      decide +kernel
    refine (spellsRegister_of_assemble "main" _).2 _ hline (by decide +kernel) "R8" (by simp)
      (by decide) fun register hspells => ?_
    have height : parseRegister "R8" = .ok 8 := by decide
    have hsame := height.symm.trans (parseRegister_eq_ok_iff_spells.mpr hspells)
    have hsmall := register.isLt
    have hvalue : (8 : Int) = register.val := Except.ok.inj hsame
    omega

/-- An operand in a slot for registers need not be the name of one. -/
theorem exists_signed_register :
    ∃ program encoded definition operands, ∃ field ∈ definition.operands.zip operands,
      assemble "main" (Text.unlines (invertingLines "R+1")) = .ok program ∧
      encoded ∈ program.statements ∧ encoded.statement.content = .machine definition operands ∧
      field.1.accepts .register = true ∧ field.2.text.toList.head? = some 'R' ∧
      ∀ register, field.2.text ≠ registerName register := by
  obtain ⟨encoded, hencoded, hcontent⟩ := exists_inverting_statement
  exact ⟨_, encoded, _, _, (InstructionSet.source, ⟨"R+1"⟩), by simp, inverting.assembled, hencoded,
    hcontent, by decide, by decide, by decide⟩

end PageMachine
