import PageMachine.Proofs.AbsoluteReference
import PageMachine.Proofs.OperandGrammar
import PageMachine.Proofs.StatementSource

/-!
# Constants and literals as they are read

Constants and literals are read exactly as they are written by the grammar of operands. A literal
fits a word in either reading, so that what counts in the pool is the number modulo 65536 and not how
it is written.
-/

namespace PageMachine

open Text

/-- Numbers are cut to the same word exactly if they are the same modulo 65536. -/
theorem ofInt_eq_ofInt_iff {value other : Int} :
    BitVec.ofInt 16 value = BitVec.ofInt 16 other ↔ value % 65536 = other % 65536 := by
  rw [← BitVec.toNat_inj, BitVec.toNat_ofInt, BitVec.toNat_ofInt]
  omega

/-- The operands of an instruction, and none of another content. -/
def Content.instructionOperands : Content → List Operand
  | .machine _ operands => operands
  | .fill _ | .nothing | .reserve _ | .unknown | .data _ => []

/-- Whether an instruction of a program has an operand with a text. -/
def Program.HasOperand (program : Program) (text : String) : Prop :=
  ∃ encoded ∈ program.statements, ⟨text⟩ ∈ encoded.statement.content.instructionOperands

instance (program : Program) (text : String) : Decidable (program.HasOperand text) :=
  inferInstanceAs (Decidable (∃ encoded ∈ program.statements, _))

/-- A literal among the operands of an instruction is one that the instruction uses. -/
theorem Content.uses_of_mem {content : Content} {operand : Operand} {value : Word}
    (hmem : operand ∈ content.instructionOperands) (hliteral : operand.IsLiteral value) :
    content.Uses value := by
  cases content with
  | machine definition operands => exact ⟨definition, operands, rfl, operand, hmem, hliteral⟩
  | fill | nothing | reserve | unknown | data => cases hmem

namespace Layout

variable {layout : Layout} {program : Program}

/-- A literal of an accepted program stands for the place of its word in the pool. -/
theorem Yields.exists_place (hyields : layout.Yields program) (hpooled : layout.Pooled)
    {text : String} {value : Int} (hoperand : program.HasOperand text)
    (hliteral : IsLiteralText text.toList value) :
    ∃ place : Word, layout.pool.addressOf? (BitVec.ofInt 16 value) = some place ∧
      program.valueOf? text = some (place.toNat : Int) := by
  obtain ⟨encoded, hencoded, hmem⟩ := hoperand
  have hkind : (Operand.mk text).kind = .literal := by
    rw [Operand.kind, OperandKind.ofText]
    generalize text.toList = shape at hliteral
    cases hliteral
    rfl
  have hparse : parseLiteral text = .ok (BitVec.ofInt 16 value) :=
    parseLiteral_eq_ok_iff.mpr ⟨value, hliteral, rfl⟩
  rw [hyields.statements] at hencoded
  obtain ⟨statement, hstatement, rfl⟩ := List.mem_map.mp hencoded
  rw [Statement.statement_encode] at hmem
  have hused : BitVec.ofInt 16 value ∈ layout.literals.values :=
    (hpooled.values _).mpr ⟨statement, hstatement, Content.uses_of_mem hmem ⟨hkind, hparse⟩⟩
  obtain ⟨place, hplace⟩ := hpooled.exists_addressOf? hused
  refine ⟨place, hplace, ?_⟩
  rw [Program.valueOf?, hkind]
  dsimp only
  rw [hparse, hyields.literals]
  change Option.map _ (layout.pool.addressOf? _) = _
  rw [hplace]
  rfl

end Layout

/-- A text is read as a constant exactly if it is one by the grammar, with the number that it is
written for, and as a literal exactly if it is an equals sign and a constant that fits a word, with
that number modulo 65536. In an accepted program a literal of an instruction stands for the place
of a word of the pool that is this number, and another one for the same place exactly if its number
is the same modulo 65536, whatever the two look like. -/
theorem parse_iff_written :
    (∀ text value, parseConstant text = .ok value ↔ IsConstant text.toList value) ∧
      (∀ text word, parseLiteral text = .ok word ↔
        ∃ value, IsLiteralText text.toList value ∧ (word.toNat : Int) = value % 65536) ∧
      ∀ hint source program, assemble hint source = .ok program → ∀ text value,
        program.HasOperand text → IsLiteralText text.toList value →
          (∃ stored ∈ program.literalWords,
            program.valueOf? text = some (stored.address.toNat : Int) ∧
              (stored.value.toNat : Int) = value % 65536) ∧
          ∀ other number, program.HasOperand other → IsLiteralText other.toList number →
            (program.valueOf? other = program.valueOf? text ↔ number % 65536 = value % 65536) := by
  have hcut : ∀ value : Int, ((BitVec.ofInt 16 value).toNat : Int) = value % 65536 := by
    intro value
    rw [BitVec.toNat_ofInt]
    omega
  refine ⟨fun _ _ => parseConstant_eq_ok_iff, fun text word => ?_, ?_⟩
  · rw [parseLiteral_eq_ok_iff]
    refine exists_congr fun value => and_congr_right fun _ => ?_
    rw [← hcut, Int.ofNat_inj, BitVec.toNat_inj]
  · intro hint source program h text value hoperand hliteral
    have hyields := yields_of_assemble h
    have hsound := Layout.sound_ofSource hyields.errors
    have hordered := Layout.ordered_ofSource hyields.errors
    have hpooled := Layout.pooled_ofSource hint source
    obtain ⟨place, hplace, hvalue⟩ := hyields.exists_place hpooled hoperand hliteral
    refine ⟨⟨_, hyields.mem_literalWords_addressOf? hsound hplace, hvalue, hcut value⟩, ?_⟩
    intro other number hother hnumber
    obtain ⟨twin, htwin, htwinValue⟩ := hyields.exists_place hpooled hother hnumber
    rw [hvalue, htwinValue, Option.some.injEq, Int.ofNat_inj, BitVec.toNat_inj,
      ← ofInt_eq_ofInt_iff]
    constructor
    · rintro rfl
      -- One address has one word.
      have hstored := (hyields.mem_words_addressOf?_iff hsound hordered hplace _).mp
        ((hyields.mem_words_addressOf?_iff hsound hordered htwin _).mpr rfl)
      exact congrArg TaggedWord.value hstored
    · intro hsame
      rw [hsame, hplace] at htwin
      exact (Option.some.inj htwin).symm

/-- The lines of a program with three literals, of which two are the same word. -/
def spellingLines : List String :=
  ["         .ORIG", "         LD      R0,=#-1", "         LD      R1,=x0fFFF",
    "         LD      R2,=#+001", "         .END"]

/-- The program with three literals, and its module. -/
def spelling : Build "main" spellingLines :=
  .ofLines (by decide +kernel)

/-- Minus one and 65535 share a word, in which one has no part. -/
theorem parse_iff_written_spelling :
    ∃ program, assemble "main" (Text.unlines spellingLines) = .ok program ∧
      program.HasOperand "=#-1" ∧ IsLiteralText "=#-1".toList (-1) ∧
      program.HasOperand "=x0fFFF" ∧ IsLiteralText "=x0fFFF".toList 65535 ∧
      program.HasOperand "=#+001" ∧ IsLiteralText "=#+001".toList 1 ∧
      program.valueOf? "=x0fFFF" = program.valueOf? "=#-1" ∧
      program.valueOf? "=#+001" ≠ program.valueOf? "=#-1" := by
  obtain ⟨hconstant, -, hpool⟩ := parse_iff_written
  have hhas : ∀ text ∈ ["=#-1", "=x0fFFF", "=#+001"], spelling.program.HasOperand text := by
    decide +kernel
  have hminus : IsLiteralText "=#-1".toList (-1) :=
    .intro ((hconstant "#-1" (-1)).mp (by decide)) (by decide) (by decide)
  have hall : IsLiteralText "=x0fFFF".toList 65535 :=
    .intro ((hconstant "x0fFFF" 65535).mp (by decide)) (by decide) (by decide)
  have hone : IsLiteralText "=#+001".toList 1 :=
    .intro ((hconstant "#+001" 1).mp (by decide)) (by decide) (by decide)
  have hsame := (hpool _ _ _ spelling.assembled _ _ (hhas "=#-1" (by simp)) hminus).2
  refine ⟨_, spelling.assembled, hhas _ (by simp), hminus, hhas _ (by simp), hall,
    hhas _ (by simp), hone, ?_, ?_⟩
  · exact (hsame _ _ (hhas _ (by simp)) hall).mpr (by decide)
  · exact fun heq => absurd ((hsame _ _ (hhas _ (by simp)) hone).mp heq) (by decide)

end PageMachine
