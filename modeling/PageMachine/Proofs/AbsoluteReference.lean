import PageMachine.Proofs.LiteralPooling
import PageMachine.Proofs.LoadableProgram
import PageMachine.Proofs.PageReference

/-!
# Page references of an absolute program

The assembler fills a page offset only if the address that the operand names is on the page of the
instruction behind, and that is the page which the machine puts in front of the offset. So in an
absolute program an instruction names the very value of its symbol or the very place of its literal,
wherever the symbol is defined and wherever the pool ends up. Operands that are constants are
offsets themselves and name no address, and imported symbols are left to the linker.
-/

namespace PageMachine

/-- The address that a word names if it runs as an instruction at its own address. -/
def TaggedWord.namedAddress (word : TaggedWord) : Word :=
  (⟨word.value⟩ : Instruction).pageAddress (word.address + 1)

/-- Whether a word of a program is an instruction that has an operand in its page offset. -/
inductive Program.PageOperand (program : Program) (word : TaggedWord) (operand : Operand) : Prop
  | intro (encoded : EncodedStatement) (definition : InstructionDefinition)
      (operands : List Operand) (slot : OperandSlot) (hencoded : encoded ∈ program.statements)
      (hcontent : encoded.statement.content = .machine definition operands)
      (hpair : (slot, operand) ∈ definition.operands.zip operands)
      (hpage : slot.pageRelative = true) (hword : word ∈ encoded.words) :
      PageOperand program word operand

/-- What an operand puts into a page offset is on the page, if the program is absolute. -/
theorem EncodingContext.Resolves.onPage_of_target {context : EncodingContext} {address : Word}
    {slot : OperandSlot} {operand : Operand} {held : FieldValue} {value : Int} {moves : Bool}
    (h : context.Resolves address slot operand held) (htarget : context.Target operand value moves)
    (hpage : slot.pageRelative = true) (habsolute : context.relocatable = false) :
    OnPage address value := by
  have hkind := htarget.kind_eq
  cases h with
  | constant _ hother => simp [hother] at hkind
  | offset _ hother => simp [hother] at hkind
  | register _ hother => simp [hother] at hkind
  | imported symbol hname hsome himported =>
    cases (htarget.imported_eq_false hname hsome).symm.trans himported
  | onPage other otherMoves hother _ hplace =>
    obtain ⟨rfl, -⟩ := htarget.unique hother
    exact hplace.resolve_left (by simp [habsolute])
  | moving _ _ hfield => cases hpage.symm.trans hfield
  | fixed _ _ hfield => cases hpage.symm.trans hfield

/-- A page offset of a value on the page of the program counter, with that page in front, is the
value. -/
theorem toNat_pageAddress_orInto {address front : Word} {value : Int}
    (hclear : front &&& BitRange.pageOffset.mask = 0)
    (hplace : EncodingContext.OnPage address value) :
    (((⟨BitRange.pageOffset.orInto front value⟩ : Instruction).pageAddress
      (address + 1)).toNat : Int) = value := by
  obtain ⟨⟨hlow, hhigh⟩, hpage⟩ := hplace
  have hpages := congrArg BitVec.toNat hpage
  rw [toNat_pageOf, toNat_pageOf, BitVec.toNat_ofInt] at hpages
  rw [toNat_pageAddress, Nat.cast_add, toNat_orInto_pageOffset value hclear]
  have hlimit : (addressLimit : Int) = 65536 := rfl
  omega

namespace Layout

variable {layout : Layout} {program : Program}

/-- An instruction of an accepted absolute program names what its operand refers to. -/
theorem Yields.namedAddress_eq (hyields : layout.Yields program) (hsound : layout.Sound)
    (habsolute : program.relocatable = false) {word : TaggedWord} {operand : Operand}
    (hoperand : program.PageOperand word operand) {value : Int} {moves : Bool}
    (htarget : (layout.context program.symbols).Target operand value moves) :
    (word.namedAddress.toNat : Int) = value := by
  cases hoperand with
  | intro encoded definition operands slot hencoded hcontent hpair hpage hword =>
    rw [hyields.statements] at hencoded
    obtain ⟨statement, hstatement, rfl⟩ := List.mem_map.mp hencoded
    rw [Statement.statement_encode] at hcontent
    have hformed := hsound.formed statement hstatement
    have hkind : operand.kind ≠ .register := by
      rcases htarget.kind_eq with hname | hliteral <;> simp [*]
    obtain ⟨front, hlast⟩ : ∃ front, statement.content.last? = some (front, slot, operand) := by
      rw [hcontent] at hformed ⊢
      exact hformed.last?_of_mem hpair hkind
    obtain ⟨held, hresolves, hencode⟩ :=
      Statement.encode_of_last? hformed hlast (hyields.encodes statement hstatement)
    have hfield := hformed.field_eq_pageOffset hlast hpage
    have hclear := hformed.and_mask_eq_zero_of_moving hlast (.inl hpage)
    rw [hfield] at hclear hencode
    have hplace := hresolves.onPage_of_target htarget hpage
      (hyields.relocatable.symm.trans habsolute)
    rw [hencode, hresolves.eq_number_of_target htarget] at hword
    obtain rfl := List.mem_singleton.mp hword
    exact toNat_pageAddress_orInto hclear hplace

/-- At the address of a literal the pool has the literal. -/
theorem Yields.mem_literalWords_addressOf? (hyields : layout.Yields program)
    (hsound : layout.Sound) {value place : Word}
    (hplace : layout.pool.addressOf? value = some place) :
    ⟨place, value, none⟩ ∈ program.literalWords := by
  refine List.mem_map.mpr ⟨(place, value), ?_, rfl⟩
  rw [hyields.literals]
  exact (hsound.indexed.setOffset _).mem_toList_of_addressOf? hplace

/-- The words at the address of a literal are one word, which is the literal. -/
theorem Yields.mem_words_addressOf?_iff (hyields : layout.Yields program) (hsound : layout.Sound)
    (hordered : layout.Ordered) {value place : Word}
    (hplace : layout.pool.addressOf? value = some place) (stored : TaggedWord) :
    stored ∈ program.words ∧ stored.address = place ↔ stored = ⟨place, value, none⟩ := by
  have hliteral : (⟨place, value, none⟩ : TaggedWord) ∈ program.words :=
    List.mem_append_right _ (hyields.mem_literalWords_addressOf? hsound hplace)
  constructor
  · rintro ⟨hstored, haddress⟩
    have hnodup : (program.words.map TaggedWord.address).Nodup :=
      (hyields.pairwise_address_words hsound hordered).imp BitVec.ne_of_lt
    exact List.inj_on_of_nodup_map hnodup hstored hliteral haddress
  · rintro rfl
    exact ⟨hliteral, rfl⟩

/-- The literals of a content that was laid out have their places in the program. -/
theorem Yields.exists_literal (hyields : layout.Yields program) (hpooled : layout.Pooled)
    {word : TaggedWord} {operand : Operand} (hoperand : program.PageOperand word operand)
    (hkind : operand.kind = .literal) :
    ∃ value place, operand.IsLiteral value ∧ layout.pool.addressOf? value = some place := by
  cases hoperand with
  | intro encoded definition operands slot hencoded hcontent hpair hpage hword =>
    rw [hyields.statements] at hencoded
    obtain ⟨statement, hstatement, rfl⟩ := List.mem_map.mp hencoded
    rw [Statement.statement_encode] at hcontent
    have hcontents := hpooled.statements statement hstatement
    rw [hcontent] at hcontents
    obtain ⟨value, hvalue, hliteral⟩ := hcontents operand (List.of_mem_zip hpair).2 hkind
    obtain ⟨place, hplace⟩ := hpooled.exists_addressOf? hvalue
    exact ⟨value, place, hliteral, hplace⟩

/-- The pool of an accepted program holds each value that an instruction uses as a literal once, and
no others. -/
theorem Yields.literalWords_spec (hyields : layout.Yields program) (hpooled : layout.Pooled) :
    (program.literalWords.map TaggedWord.value).Nodup ∧
      ∀ value, value ∈ program.literalWords.map TaggedWord.value ↔
        ∃ encoded ∈ program.statements, encoded.statement.content.Uses value := by
  have hvalues : program.literalWords.map TaggedWord.value = layout.literals.values := by
    rw [Program.literalWords, hyields.literals]
    apply List.ext_getElem <;> simp [LiteralPool.toList, pool, LiteralPool.setOffset]
  rw [hvalues]
  refine ⟨hpooled.nodup, fun value => ?_⟩
  rw [hpooled.values, hyields.statements]
  simp only [List.mem_map, exists_exists_and_eq_and, Statement.statement_encode]

end Layout

/-- In an accepted absolute program an instruction with a symbol in its page offset names the
symbol's value, and one with a literal names the address of a word that is the literal and the only
one there. The pool holds the literals that instructions use, each once and no others. No source
text has an error for a literal without a place. -/
theorem namedAddress_of_absolute :
    (∀ hint source program, assemble hint source = .ok program →
      (program.relocatable = false → ∀ word operand, program.PageOperand word operand →
        (∀ symbol, operand.kind = .symbol → program.symbols.get? operand.text = some symbol →
          symbol.imported = false → (word.namedAddress.toNat : Int) = symbol.value) ∧
        (operand.kind = .literal → ∃ value, parseLiteral operand.text = .ok value ∧
          ∀ stored, stored ∈ program.words ∧ stored.address = word.namedAddress ↔
            stored = ⟨word.namedAddress, value, none⟩)) ∧
      (program.literalWords.map TaggedWord.value).Nodup ∧
      ∀ value, value ∈ program.literalWords.map TaggedWord.value ↔
        ∃ encoded ∈ program.statements, encoded.statement.content.Uses value) ∧
    ∀ hint source errors, assemble hint source = .error errors → ∀ error ∈ errors,
      ∀ text, error.fault ≠ .operand (.unpooledLiteral text) := by
  constructor
  · intro hint source program hprogram
    have hyields := yields_of_assemble hprogram
    have hsound := Layout.sound_ofSource hyields.errors
    have hordered := Layout.ordered_ofSource hyields.errors
    have hpooled := Layout.pooled_ofSource hint source
    refine ⟨fun habsolute word operand hoperand => ⟨?_, ?_⟩, hyields.literalWords_spec hpooled⟩
    · intro symbol hkind hsome himported
      exact hyields.namedAddress_eq hsound habsolute hoperand
        (.symbol symbol hkind hsome himported)
    · intro hkind
      obtain ⟨value, place, hliteral, hplace⟩ := hyields.exists_literal hpooled hoperand hkind
      have hnamed := hyields.namedAddress_eq hsound habsolute hoperand
        (.literal value place hkind hliteral.2 hplace)
      obtain rfl : word.namedAddress = place := BitVec.eq_of_toNat_eq (Int.ofNat.inj hnamed)
      exact ⟨value, hliteral.2, hyields.mem_words_addressOf?_iff hsound hordered hplace⟩
  · intro hint source errors hassemble error herror text hfault
    have hordinary := ordinary_of_assemble hassemble error herror
    rw [hfault] at hordinary
    exact hordinary

/-- The lines of an absolute program whose first word is the last of a page. -/
def pageEndLines : List String :=
  ["         .ORIG   x01FF", "         LD      R0,V", "         LD      R1,=#7",
    "         TRAP    x25", "V        .FILL   #7", "         .END"]

/-- The program that begins with the last word of a page, and its module. -/
def pageEnd : Build "main" pageEndLines :=
  .ofLines (by decide +kernel)

/-- The load that `pageEnd` does twice. -/
def pageLoad : InstructionDefinition :=
  ⟨"LD", 0x2000, [InstructionSet.target, .literalPage]⟩

/-- The first word of `pageEnd` has a symbol in its page offset. -/
theorem pageOperand_pageEnd_symbol : pageEnd.program.PageOperand ⟨0x1FF, 0x2002, none⟩ ⟨"V"⟩ :=
  .intro
    ⟨⟨2, "         LD      R0,V", 0x1FF, .machine pageLoad [⟨"R0"⟩, ⟨"V"⟩]⟩,
      [⟨0x1FF, 0x2002, none⟩], [], []⟩
    pageLoad _ .literalPage (by decide +kernel) rfl (by decide +kernel) rfl
    (List.mem_singleton_self _)

/-- The second word of `pageEnd` has a literal in its page offset. -/
theorem pageOperand_pageEnd_literal :
    pageEnd.program.PageOperand ⟨0x200, 0x2203, none⟩ ⟨"=#7"⟩ :=
  .intro
    ⟨⟨3, "         LD      R1,=#7", 0x200, .machine pageLoad [⟨"R1"⟩, ⟨"=#7"⟩]⟩,
      [⟨0x200, 0x2203, none⟩], [], []⟩
    pageLoad _ .literalPage (by decide +kernel) rfl (by decide +kernel) rfl
    (List.mem_singleton_self _)

/-- The first word names the symbol's value on the next page, and at the address that the second
word names is the literal. -/
theorem namedAddress_pageEndLines :
    ∃ program, assemble "main" (Text.unlines pageEndLines) = .ok program ∧
      program.PageOperand ⟨0x1FF, 0x2002, none⟩ ⟨"V"⟩ ∧
      program.PageOperand ⟨0x200, 0x2203, none⟩ ⟨"=#7"⟩ ∧
      (((⟨0x1FF, 0x2002, none⟩ : TaggedWord).namedAddress.toNat : Int) = 0x202) ∧
      (⟨0x203, 7, none⟩ : TaggedWord) ∈ program.words := by
  have hspec := (namedAddress_of_absolute.1 _ _ _ pageEnd.assembled).1 (by decide +kernel)
  have hsymbol := (hspec _ _ pageOperand_pageEnd_symbol).1 ⟨0x202, false, false, false⟩
    (by decide) (by decide +kernel) rfl
  obtain ⟨value, hparse, hstored⟩ := (hspec _ _ pageOperand_pageEnd_literal).2 (by decide)
  have hseven : parseLiteral "=#7" = .ok 7 := by decide
  obtain rfl : 7 = value := Except.ok.inj (hseven.symm.trans hparse)
  have hnamed : (⟨0x200, 0x2203, none⟩ : TaggedWord).namedAddress = 0x203 := by decide
  rw [hnamed] at hstored
  exact ⟨_, pageEnd.assembled, pageOperand_pageEnd_symbol, pageOperand_pageEnd_literal, hsymbol,
    ((hstored _).mpr rfl).1⟩

end PageMachine
