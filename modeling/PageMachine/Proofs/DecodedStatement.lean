import PageMachine.Proofs.LiteralPooling
import PageMachine.Proofs.OperandGrammar
import PageMachine.Proofs.OperandRole
import PageMachine.Proofs.RoundTrip
import PageMachine.Proofs.StatementSource

/-!
# The machine decodes what was assembled

An instruction of an accepted program is one word, and what the accessors of that word give is what
its line says: the opcode of the mnemonic, the numbers of the registers, constants and indices as
written, and page offsets of the addresses that names and literals stand for. Each accessor is
spoken of for the instructions that have its field; in the others its bits belong to something else.

A line whose operand another module supplies is left out, since its word is not finished.
-/

namespace PageMachine

/-- The number that an operand puts into its slot. -/
def EncodingContext.number (context : EncodingContext) (address : Word)
    (pair : OperandSlot × Operand) : Int :=
  match context.resolve address pair.1 pair.2 with
  | .ok (.number value _) => value
  | _ => 0

/-- A number that is no address is in the range of its slot. -/
theorem EncodingContext.Resolves.inRange {context : EncodingContext} {address : Word}
    {slot : OperandSlot} {operand : Operand} {value : Int} {moves : Bool}
    (h : context.Resolves address slot operand (.number value moves))
    (hpage : slot.pageRelative = false) (hfield : slot.field ≠ .wholeWord) :
    slot.InRange value := by
  cases h with
  | constant _ _ _ hrange => exact hrange
  | offset _ _ _ _ hother => cases hpage.symm.trans hother
  | register _ _ _ hrange => exact hrange
  | onPage _ _ _ hother => cases hpage.symm.trans hother
  | moving _ _ _ hwhole => exact absurd hwhole hfield
  | fixed _ _ _ hrange => exact hrange

namespace WordEncoding

/-- Operands that leave no errors all resolve. -/
theorem resolve_of_putPairs {context : EncodingContext} {address : Word}
    {encoding : WordEncoding} {pairs : List (OperandSlot × Operand)}
    (h : (encoding.putPairs context address pairs).errors = []) :
    encoding.errors = [] ∧ ∀ pair ∈ pairs, ∃ held,
      context.resolve address pair.1 pair.2 = .ok held := by
  induction pairs generalizing encoding with
  | nil => exact ⟨h, fun _ hpair => nomatch hpair⟩
  | cons pair rest ih =>
    obtain ⟨hput, hrest⟩ := ih (show (WordEncoding.putPairs _ _ _ rest).errors = [] from h)
    cases hresolve : context.resolve address pair.1 pair.2 with
    | error error => simp [put, hresolve] at hput
    | ok held =>
      refine ⟨?_, List.forall_mem_cons.mpr ⟨⟨held, hresolve⟩, hrest⟩⟩
      cases held <;> simpa [put, hresolve] using hput

/-- Operands that resolve fill their slots with their numbers, and with nothing where another module
has the number. -/
theorem word_putPairs {context : EncodingContext} {address : Word} {encoding : WordEncoding}
    {pairs : List (OperandSlot × Operand)}
    (h : ∀ pair ∈ pairs, ∃ held, context.resolve address pair.1 pair.2 = .ok held) :
    (encoding.putPairs context address pairs).word = filledWord encoding.word
      (pairs.map fun pair => (pair.1.field, context.number address pair)) := by
  induction pairs generalizing encoding with
  | nil => rfl
  | cons pair rest ih =>
    obtain ⟨held, hresolve⟩ := h pair List.mem_cons_self
    have hput : (encoding.put context address pair.1 pair.2).word =
        pair.1.field.orInto encoding.word (context.number address pair) := by
      cases held with
      | number value moves => simp [put, EncodingContext.number, hresolve]
      | imported name =>
        simp [put, EncodingContext.number, hresolve, BitRange.orInto, BitRange.place]
    change (WordEncoding.putPairs _ _ _ rest).word = filledWord (pair.1.field.orInto _ _) _
    rw [ih fun other hother => h other (List.mem_cons_of_mem _ hother), hput]

end WordEncoding

/-- An instruction becomes one word, its slots filled with the numbers of its operands, if they all
resolve. -/
theorem Statement.exists_word_of_machine {statement : Statement} {context : EncodingContext}
    {definition : InstructionDefinition} {operands : List Operand}
    (hcontent : statement.content = .machine definition operands)
    (h : ∀ pair ∈ definition.operands.zip operands, ∃ held,
      context.resolve statement.place pair.1 pair.2 = .ok held) :
    ∃ word, (statement.encode context).words = [word] ∧
      word.value = filledWord definition.pattern ((definition.operands.zip operands).map fun pair =>
        (pair.1.field, context.number statement.place pair)) := by
  rw [encode, hcontent]
  refine ⟨_, rfl, ?_⟩
  rw [WordEncoding.putAll_eq_putPairs, WordEncoding.word_putPairs h]
  rfl

namespace InstructionSet

/-- Slots are for registers, for numbers, or for addresses in a page. -/
theorem kinds_of_mem_slots : ∀ slot ∈ slots,
    (slot.role ∈ [OperandRole.target, .source, .otherSource] ∧ slot.accepted = [.register] ∧
        slot.pageRelative = false) ∨
      (slot.role ∈ [OperandRole.constant, .index, .vector] ∧ .register ∉ slot.accepted ∧
        slot.pageRelative = false) ∨
      (slot.role = .page ∧ .register ∉ slot.accepted ∧ slot.pageRelative = true) := by
  decide +kernel

/-- A slot that takes registers takes nothing else, has room for their numbers, and is the field in
which the machine reads one. -/
theorem register_of_mem_slots : ∀ slot ∈ slots, slot.accepts .register = true →
    slot.accepted = [.register] ∧ slot.minValue = 0 ∧ slot.maxValue = 7 ∧
      slot.field = slot.role.field ∧ slot.role.field.width = 3 := by
  decide +kernel

/-- No slot of an instruction is a whole word. -/
theorem field_ne_of_mem_slots : ∀ slot ∈ slots, slot.field ≠ .wholeWord := by
  decide +kernel

/-- Zero is in the range of every slot that does not hold an address in a page. -/
theorem inRange_zero_of_mem_slots : ∀ slot ∈ slots, slot.pageRelative = false →
    slot.InRange 0 := by
  decide +kernel

end InstructionSet

/-- What fills a slot of an instruction is in its range, unless it is an address in a page. -/
theorem EncodingContext.inRange_number {context : EncodingContext} {address : Word}
    {slot : OperandSlot} {operand : Operand} {held : FieldValue}
    (hslot : slot ∈ InstructionSet.slots) (hpage : slot.pageRelative = false)
    (h : context.resolve address slot operand = .ok held) :
    slot.InRange (context.number address (slot, operand)) := by
  rw [number, h]
  cases held with
  | number value moves =>
    exact (resolves_of_resolve h).inRange hpage (InstructionSet.field_ne_of_mem_slots slot hslot)
  | imported name => exact InstructionSet.inRange_zero_of_mem_slots slot hslot hpage

/-- A register operand of an instruction spells a register, and resolves to the number of that. -/
theorem EncodingContext.Resolves.exists_spellsRegister {context : EncodingContext} {address : Word}
    {slot : OperandSlot} {operand : Operand} {held : FieldValue}
    (h : context.Resolves address slot operand held) (hslot : slot ∈ InstructionSet.slots)
    (haccepts : slot.accepts .register = true) (hkind : operand.kind = .register) :
    ∃ register, SpellsRegister operand.text.toList register ∧
      held = .number (register.val : Int) false := by
  obtain ⟨-, hmin, hmax, -⟩ := InstructionSet.register_of_mem_slots slot hslot haccepts
  obtain ⟨value, hparse, ⟨hlow, hhigh⟩, rfl⟩ := h.register_of_kind hkind
  rw [hmin] at hlow
  rw [hmax] at hhigh
  lift value to Nat using hlow
  have hsmall : value < 8 := by omega
  exact ⟨⟨value, hsmall⟩, parseRegister_eq_ok_iff_spells.mp hparse, rfl⟩

namespace Program

/-- Whether a text that is no register stands for a number in a program: a constant is written for
it, a symbol of the program's own has it as its value, and a literal is a word of the pool whose
address it is. -/
inductive Means (program : Program) : String → Int → Prop
  | constant {text : String} {value : Int} (h : IsConstant text.toList value) :
      Means program text value
  | symbol {text : String} {symbol : Symbol} (hkind : (Operand.mk text).kind = .symbol)
      (hsome : program.symbols.get? text = some symbol) (hlocal : symbol.imported = false) :
      Means program text symbol.value
  | literal {text : String} {value : Int} {place : Word} (h : IsLiteralText text.toList value)
      (hplace : (place, BitVec.ofInt 16 value) ∈ program.literals.toList) :
      Means program text place.toNat

/-- The number that an operand is found to stand for is the one that its text stands for. -/
theorem means_of_valueOf? {program : Program} (hindexed : program.literals.Indexed) {text : String}
    {value : Int} (h : program.valueOf? text = some value) : program.Means text value := by
  unfold valueOf? at h
  split at h
  · cases hparse : parseConstant text with
    | error error =>
      rw [hparse] at h
      cases h
    | ok number =>
      rw [hparse] at h
      obtain rfl : number = value := Option.some.inj h
      exact .constant (parseConstant_eq_ok_iff.mp hparse)
  · rename_i hkind
    obtain ⟨symbol, hsome, h⟩ := Option.bind_eq_some_iff.mp h
    cases himported : symbol.imported with
    | true =>
      rw [himported, if_pos rfl] at h
      cases h
    | false =>
      rw [himported, if_neg Bool.false_ne_true] at h
      obtain rfl := Option.some.inj h
      exact .symbol hkind hsome himported
  · obtain ⟨word, hparse, h⟩ := Option.bind_eq_some_iff.mp h
    obtain ⟨place, hplace, rfl⟩ := Option.map_eq_some_iff.mp h
    cases hread : parseLiteral text with
    | error error =>
      rw [hread] at hparse
      cases hparse
    | ok other =>
      rw [hread] at hparse
      obtain rfl : other = word := Option.some.inj hparse
      obtain ⟨number, hliteral, rfl⟩ := parseLiteral_eq_ok_iff.mp hread
      exact .literal hliteral (hindexed.mem_toList_of_addressOf? hplace)
  · cases h
  · cases h

/-- Whether an instruction shows an operand of a line in the field for its role. An address in a
page is counted from the beginning of the page, and a constant as such an address from the origin's
place in its page. -/
def Shows (program : Program) (i : Instruction) (role : OperandRole) (text : String) : Prop :=
  match role with
  | .target | .source | .otherSource =>
      ∃ register, SpellsRegister text.toList register ∧ i.read role = (register.val : Int)
  | .constant | .index | .vector => program.Means text (i.read role)
  | .page => ∃ value, program.Means text value ∧
      i.read .page =
        (if (Operand.mk text).kind = .immediate then value - program.origin.toNat % 512
          else value) % 512

/-- Whether an instruction says what a line of a program says. -/
structure Decodes (program : Program) (i : Instruction) (line : SourceLine) : Prop where
  /-- It has the opcode of the mnemonic. -/
  opcode : Opcode.ofMnemonic? line.operation = some i.opcode
  /-- It shows the operands of the line, each in the field for its role. -/
  operands : List.Forall₂ (program.Shows i) i.roles line.operands
  /-- A calculation holds its second operand in itself if that is no register. -/
  immediateMode : i.opcode = .add ∨ i.opcode = .and → (i.immediateMode = true ↔
    ∃ text, line.operands[2]? = some text ∧ (Operand.mk text).kind ≠ .register)
  /-- A branch has the conditions of the letters in its mnemonic. -/
  condition : i.opcode = .branch → i.condition = Condition.maskOf line.operation
  /-- A jump keeps the return address if its mnemonic says so. -/
  link : i.opcode = .jump ∨ i.opcode = .jumpIndexed →
    (i.link = true ↔ line.operation = "JSR" ∨ line.operation = "JSRR")

/-- Whether another module supplies an operand of a line. -/
def TakesImport (program : Program) (line : SourceLine) : Prop :=
  ∃ text ∈ line.operands, (program.symbols.get? text).any Symbol.imported = true

instance (program : Program) (line : SourceLine) : Decidable (program.TakesImport line) :=
  inferInstanceAs (Decidable (∃ text ∈ line.operands, _))

end Program

namespace Layout

variable {layout : Layout} {program : Program}

/-- What an operand refers to is what it stands for in the program. -/
theorem Yields.valueOf?_of_target (hyields : layout.Yields program) {operand : Operand}
    {value : Int} {moves : Bool}
    (h : (layout.context program.symbols).Target operand value moves) :
    program.valueOf? operand.text = some value := by
  cases h with
  | symbol symbol hkind hsome himported =>
    rw [Program.valueOf?, hkind]
    dsimp only
    rw [show program.symbols.get? operand.text = some symbol from hsome, Option.bind_some,
      himported, if_neg Bool.false_ne_true]
  | literal literal place hkind hparse hplace =>
    rw [Program.valueOf?, hkind]
    dsimp only
    rw [hparse, hyields.literals]
    change Option.map _ (layout.pool.addressOf? literal) = _
    rw [show layout.pool.addressOf? literal = some place from hplace]
    rfl

/-- A number that is no address in a page is what its operand stands for. -/
theorem Yields.valueOf?_of_resolves (hyields : layout.Yields program) {address : Word}
    {slot : OperandSlot} {operand : Operand} {value : Int} {moves : Bool}
    (h : (layout.context program.symbols).Resolves address slot operand (.number value moves))
    (hpage : slot.pageRelative = false) (hkind : operand.kind ≠ .register) :
    program.valueOf? operand.text = some value := by
  cases h with
  | constant _ himmediate hparse => exact Program.valueOf?_of_constant himmediate hparse
  | offset _ _ _ _ hother => cases hpage.symm.trans hother
  | register _ hregister => exact absurd hregister hkind
  | onPage _ _ _ hother => cases hpage.symm.trans hother
  | moving _ htarget => exact hyields.valueOf?_of_target htarget
  | fixed _ htarget => exact hyields.valueOf?_of_target htarget

/-- An address in a page is what its operand stands for, a constant being counted from the origin's
place in its page. -/
theorem Yields.exists_valueOf?_of_resolves (hyields : layout.Yields program) {address : Word}
    {slot : OperandSlot} {operand : Operand} {value : Int} {moves : Bool}
    (h : (layout.context program.symbols).Resolves address slot operand (.number value moves))
    (hpage : slot.pageRelative = true) (hkind : operand.kind ≠ .register) :
    ∃ meant, program.valueOf? operand.text = some meant ∧
      value = if operand.kind = .immediate then meant - program.origin.toNat % 512 else meant := by
  cases h with
  | constant _ _ _ _ hother => cases hother.symm.trans hpage
  | offset meant himmediate hparse =>
    refine ⟨meant, Program.valueOf?_of_constant himmediate hparse, ?_⟩
    rw [if_pos himmediate, toNat_and_offsetMask, hyields.origin]
    rfl
  | register _ hregister => exact absurd hregister hkind
  | onPage _ _ htarget =>
    refine ⟨value, hyields.valueOf?_of_target htarget, ?_⟩
    rcases htarget.kind_eq with hsymbol | hliteral
    · rw [if_neg (by simp [hsymbol])]
    · rw [if_neg (by simp [hliteral])]
  | moving _ _ hother => cases hother.symm.trans hpage
  | fixed _ _ hother => cases hother.symm.trans hpage

/-- An instruction whose field holds the number of an operand shows the operand. -/
theorem Yields.shows (hyields : layout.Yields program) (hindexed : program.literals.Indexed)
    {i : Instruction} {address : Word}
    {slot : OperandSlot} {operand : Operand} {value : Int} {moves : Bool}
    (hslot : slot ∈ InstructionSet.slots) (haccepts : slot.accepts operand.kind = true)
    (h : (layout.context program.symbols).Resolves address slot operand (.number value moves))
    (hextract : (slot.role.field.extract i.word).toNat =
      BitRange.rest slot.role.field.width value) :
    program.Shows i slot.role operand.text := by
  have hmem : operand.kind ∈ slot.accepted := by simpa [OperandSlot.accepts] using haccepts
  have hfield := InstructionSet.field_ne_of_mem_slots slot hslot
  rcases InstructionSet.kinds_of_mem_slots slot hslot with
    ⟨hrole, haccepted, hpage⟩ | ⟨hrole, hnone, hpage⟩ | ⟨hrole, hnone, hpage⟩
  · have hread := i.read_of_inRange hslot hpage (h.inRange hpage hfield) hextract
    have hregister : operand.kind = .register := by simpa [haccepted] using hmem
    obtain ⟨register, hspells, hheld⟩ :=
      h.exists_spellsRegister hslot (hregister ▸ haccepts) hregister
    obtain ⟨rfl, -⟩ := FieldValue.number.inj hheld
    have hshown : ∃ register, SpellsRegister operand.text.toList register ∧
        i.read slot.role = (register.val : Int) := ⟨register, hspells, hread⟩
    simp only [List.mem_cons, List.not_mem_nil, or_false] at hrole
    rcases hrole with hrole | hrole | hrole <;> rw [hrole] at hshown ⊢ <;> exact hshown
  · have hread := i.read_of_inRange hslot hpage (h.inRange hpage hfield) hextract
    have hkind : operand.kind ≠ .register := fun hregister => hnone (hregister ▸ hmem)
    have hshown : program.Means operand.text (i.read slot.role) := by
      rw [hread]
      exact Program.means_of_valueOf? hindexed (hyields.valueOf?_of_resolves h hpage hkind)
    simp only [List.mem_cons, List.not_mem_nil, or_false] at hrole
    rcases hrole with hrole | hrole | hrole <;> rw [hrole] at hshown ⊢ <;> exact hshown
  · have hkind : operand.kind ≠ .register := fun hregister => hnone (hregister ▸ hmem)
    obtain ⟨meant, hmeant, hvalue⟩ := hyields.exists_valueOf?_of_resolves h hpage hkind
    rw [hrole] at hextract ⊢
    refine ⟨meant, Program.means_of_valueOf? hindexed hmeant, ?_⟩
    rw [i.read_eq_extract (by decide), hextract, BitRange.natCast_rest, hvalue]
    rfl

/-- A line whose operation is a mnemonic is laid out as an instruction with its operands. -/
theorem Step.machine_of_isMnemonic {before after : Layout} {line : Nat} {source : SourceLine}
    {content : Content}
    (hstep : before.Step line source (Directive.ofText? source.operation) after content)
    (hmnemonic : InstructionSet.isMnemonic source.operation = true) :
    ∃ definition ∈ InstructionSet.table, definition.mnemonic = source.operation ∧
      content = .machine definition (source.operands.map Operand.mk) := by
  rw [Directive.ofText?_of_isMnemonic hmnemonic] at hstep
  cases hstep with
  | blank _ _ hoperation =>
    rw [hoperation] at hmnemonic
    exact absurd hmnemonic (by decide)
  | machine _ definition _ _ hfind =>
    have hmatch := List.find?_some hfind
    rw [Bool.and_eq_true, beq_iff_eq] at hmatch
    exact ⟨definition, List.mem_of_find?_eq_some hfind, hmatch.1, rfl⟩

/-- The operands of an instruction without imports resolve to numbers. -/
theorem exists_number_of_resolve {source : SourceLine}
    (hlocal : ¬program.TakesImport source) {address : Word} {slot : OperandSlot} {text : String}
    (htext : text ∈ source.operands) {held : FieldValue}
    (h : (layout.context program.symbols).resolve address slot ⟨text⟩ = .ok held) :
    ∃ value moves, held = .number value moves := by
  cases held with
  | number value moves => exact ⟨value, moves, rfl⟩
  | imported name =>
    cases EncodingContext.resolves_of_resolve h with
    | imported symbol _ hsome himported =>
      refine absurd ⟨text, htext, ?_⟩ hlocal
      rw [show program.symbols.get? text = some symbol from hsome]
      exact himported

/-- The third operand of a calculation is held in the instruction if it is no register. -/
theorem immediateMode_iff_of_madeFrom {i : Instruction} {definition : InstructionDefinition}
    {texts : List String} {number : OperandSlot × Operand → Int}
    (hmade : i.MadeFrom definition (definition.operands.zip (texts.map Operand.mk)) number)
    (hformed : (Content.machine definition (texts.map Operand.mk)).Formed)
    (hbinary : (Instruction.mk definition.pattern).opcode = .add ∨
      (Instruction.mk definition.pattern).opcode = .and) :
    i.immediateMode = true ↔
      ∃ text, texts[2]? = some text ∧ (Operand.mk text).kind ≠ .register := by
  rw [Instruction.immediateMode_eq_of_fixes hmade.fixed hbinary]
  have hroles := congrArg List.length
    (InstructionSet.roles_of_mem_table definition hformed.1).2
  have hthree : definition.operands.length = 3 := by
    rw [List.length_map] at hroles
    rw [hroles, Instruction.roles]
    rcases hbinary with hbinary | hbinary <;> rw [hbinary] <;> rfl
  have hfits := hformed.2.1
  simp only [InstructionDefinition.fits, List.length_map, Bool.and_eq_true, beq_iff_eq,
    List.all_eq_true] at hfits
  obtain ⟨hlength, haccepts⟩ := hfits
  obtain ⟨first, second, slot, hslots⟩ := List.length_eq_three.mp hthree
  obtain ⟨a, b, text, htexts⟩ := List.length_eq_three.mp (hlength.symm.trans hthree)
  have hkind : (Operand.mk text).kind ∈ slot.accepted := by
    have haccept := haccepts (slot, (Operand.mk text).kind) (by simp [hslots, htexts])
    simpa [OperandSlot.accepts] using haccept
  have hthird := InstructionSet.immediateMode_of_mem_table definition hformed.1 hbinary slot
    (by simp [hslots]) _ hkind
  rw [hthird, htexts]
  simp

/-- An instruction made from the definition of a line, with the numbers of the line's operands, says
what the line says. -/
theorem Yields.decodes (hyields : layout.Yields program) (hindexed : program.literals.Indexed)
    {i : Instruction} {definition : InstructionDefinition} {line : SourceLine}
    (hname : definition.mnemonic = line.operation)
    (hformed : (Content.machine definition (line.operands.map Operand.mk)).Formed)
    {number : OperandSlot × Operand → Int}
    (hmade : i.MadeFrom definition (definition.operands.zip (line.operands.map Operand.mk)) number)
    {address : Word}
    (hnumber : ∀ pair ∈ definition.operands.zip (line.operands.map Operand.mk), ∃ moves,
      (layout.context program.symbols).Resolves address pair.1 pair.2
        (.number (number pair) moves)) : program.Decodes i line := by
  have hmem := hformed.1
  have hform : (Content.machine definition (line.operands.map Operand.mk)).form? =
      some (definition.pattern, definition.operands.zip (line.operands.map Operand.mk)) := rfl
  have hopcode := Instruction.opcode_eq_of_fixes hmade.fixed
  obtain ⟨hmnemonic, hroles⟩ := InstructionSet.roles_of_mem_table definition hmem
  have hlength : definition.operands.length = line.operands.length := by
    have hfits := hformed.2.1
    simp only [InstructionDefinition.fits, List.length_map, Bool.and_eq_true, beq_iff_eq] at hfits
    exact hfits.1
  have hshows : ∀ pair ∈ definition.operands.zip (line.operands.map Operand.mk),
      program.Shows i pair.1.role pair.2.text := by
    intro pair hpair
    obtain ⟨moves, hresolves⟩ := hnumber pair hpair
    have hslot := InstructionSet.slot_of_mem_table definition hmem pair.1 (List.of_mem_zip hpair).1
    exact hyields.shows hindexed hslot.1 ((hformed.pairs_spec hform).1 pair hpair).1 hresolves
      (hmade.extract pair hpair)
  exact
    { opcode := by rw [hopcode, ← hname, hmnemonic]
      operands := by
        rw [Instruction.roles_eq_of_fixes hmade.fixed, ← hroles, List.forall₂_map_left_iff,
          List.forall₂_iff_zip]
        refine ⟨hlength, fun {slot text} hpair => hshows (slot, ⟨text⟩) ?_⟩
        rw [List.zip_map_right]
        exact List.mem_map.mpr ⟨_, hpair, rfl⟩
      immediateMode := by
        rw [hopcode]
        exact immediateMode_iff_of_madeFrom hmade hformed
      condition := by
        rw [hopcode, ← hname]
        intro hbranch
        rw [Instruction.condition_eq_of_fixes hmade.fixed hbranch]
        exact InstructionSet.condition_of_mem_table definition hmem hbranch
      link := by
        rw [hopcode, ← hname]
        intro hjump
        rw [Instruction.link_eq_of_fixes hmade.fixed hjump]
        exact InstructionSet.link_of_mem_table definition hmem hjump }

/-- The operands of an accepted instruction resolve. -/
theorem Yields.exists_resolve (hyields : layout.Yields program) {statement : Statement}
    (hstatement : statement ∈ layout.statements) {definition : InstructionDefinition}
    {operands : List Operand} (hcontent : statement.content = .machine definition operands) :
    ∀ pair ∈ definition.operands.zip operands, ∃ held,
      (layout.context program.symbols).resolve statement.place pair.1 pair.2 = .ok held := by
  have hclean := hyields.encodes statement hstatement
  rw [Statement.encode, hcontent] at hclean
  change (WordEncoding.putAll _ _ _ _ _).errors = [] at hclean
  rw [WordEncoding.putAll_eq_putPairs] at hclean
  exact (WordEncoding.resolve_of_putPairs hclean).2

/-- An accepted instruction is one word, made from its definition and the numbers of its operands. -/
theorem Yields.exists_madeFrom (hyields : layout.Yields program) (hsound : layout.Sound)
    {statement : Statement} (hstatement : statement ∈ layout.statements)
    {definition : InstructionDefinition} {operands : List Operand}
    (hcontent : statement.content = .machine definition operands) :
    ∃ word, (statement.encode (layout.context program.symbols)).words = [word] ∧
      Instruction.MadeFrom ⟨word.value⟩ definition (definition.operands.zip operands)
        ((layout.context program.symbols).number statement.place) := by
  have hformed := hsound.formed statement hstatement
  rw [hcontent] at hformed
  have hmem := hformed.1
  have hresolve := hyields.exists_resolve hstatement hcontent
  obtain ⟨word, hwords, hvalue⟩ := statement.exists_word_of_machine hcontent hresolve
  refine ⟨word, hwords, ?_⟩
  rw [hvalue]
  refine InstructionSet.madeFrom_filledWord hmem (List.map_fst_zip ?_) ?_
  · have hfits := hformed.2.1
    simp only [InstructionDefinition.fits, List.length_map, Bool.and_eq_true, beq_iff_eq] at hfits
    rw [hfits.1]
  · intro pair hpair hpage
    obtain ⟨held, hheld⟩ := hresolve pair hpair
    have hslot := InstructionSet.slot_of_mem_table definition hmem pair.1 (List.of_mem_zip hpair).1
    exact EncodingContext.inRange_number hslot.1 hpage hheld

/-- The operands of an instruction without imports resolve to their numbers. -/
theorem Yields.exists_resolves_number (hyields : layout.Yields program) {statement : Statement}
    (hstatement : statement ∈ layout.statements) {definition : InstructionDefinition}
    {line : SourceLine}
    (hcontent : statement.content = .machine definition (line.operands.map Operand.mk))
    (hlocal : ¬program.TakesImport line) :
    ∀ pair ∈ definition.operands.zip (line.operands.map Operand.mk), ∃ moves,
      (layout.context program.symbols).Resolves statement.place pair.1 pair.2
        (.number ((layout.context program.symbols).number statement.place pair) moves) := by
  intro pair hpair
  obtain ⟨held, hheld⟩ := hyields.exists_resolve hstatement hcontent pair hpair
  obtain ⟨text, htext, hsame⟩ := List.mem_map.mp (List.of_mem_zip hpair).2
  rw [← hsame] at hheld
  obtain ⟨value, moves, rfl⟩ := exists_number_of_resolve hlocal htext hheld
  rw [hsame] at hheld
  refine ⟨moves, EncodingContext.resolves_of_resolve ?_⟩
  rw [EncodingContext.number, hheld]

end Layout

/-- Every instruction of an accepted program whose operands are its own is one word, which the
machine decodes to what the line says. -/
theorem decodes_of_assemble {hint source : String} {program : Program}
    (h : assemble hint source = .ok program) {encoded : EncodedStatement}
    (hencoded : encoded ∈ program.statements) {line : SourceLine}
    (hscan : (SourceLine.scan encoded.statement.source.toList).2 = some line)
    (hmnemonic : InstructionSet.isMnemonic line.operation = true)
    (hlocal : ¬program.TakesImport line) :
    ∃ word, encoded.words = [word] ∧ program.Decodes ⟨word.value⟩ line := by
  have hyields := yields_of_assemble h
  have hsound := Layout.sound_ofSource hyields.errors
  have hlines := Layout.forall₂_laysOut_ofSource hyields.errors
  rw [hyields.statements] at hencoded
  obtain ⟨statement, hstatement, rfl⟩ := List.mem_map.mp hencoded
  obtain ⟨own, -, before, after, hown, hstep, -, -, -⟩ :=
    Layout.exists_line_of_mem hlines hstatement
  obtain rfl : own = line := by simpa [hown] using hscan
  obtain ⟨definition, -, hname, hcontent⟩ := hstep.machine_of_isMnemonic hmnemonic
  obtain ⟨word, hwords, hmade⟩ := hyields.exists_madeFrom hsound hstatement hcontent
  have hnumber := hyields.exists_resolves_number hstatement hcontent hlocal
  have hformed := hsound.formed statement hstatement
  rw [hcontent] at hformed
  have hindexed : program.literals.Indexed := hyields.literals ▸ hsound.indexed.setOffset _
  exact ⟨word, hwords, hyields.decodes hindexed hname hformed hmade hnumber⟩

/-- The lines of a program in the middle of a page, with operands of every role. -/
def decodedLines : List String :=
  ["Main     .ORIG   x3010", "Start    ADD     R1,R2,#-3", "         STR     R5,R7,#63",
    "         AND     R3,R4,R5", "         BRNP    Start", "         LD      R6,=#7",
    "         JSR     x20", "         TRAP    x25", "         .END    Start"]

/-- The program with operands of every role, and its module. -/
def decoded : Build "main" decodedLines :=
  .ofLines (by decide +kernel)

/-- The store with an index in `decoded`, whose slot is wider than its field, is decoded. -/
theorem decodes_decodedLines :
    ∃ program encoded word, assemble "main" (Text.unlines decodedLines) = .ok program ∧
      encoded ∈ program.statements ∧ encoded.words = [word] ∧ word.value = 0x7BFF ∧
      program.Decodes ⟨word.value⟩ ⟨"", "STR", ["R5", "R7", "#63"]⟩ := by
  have hstore : (∃ encoded ∈ decoded.program.statements,
      (SourceLine.scan encoded.statement.source.toList).2 =
        some ⟨"", "STR", ["R5", "R7", "#63"]⟩ ∧ encoded.words = [⟨0x3011, 0x7BFF, none⟩]) ∧
      ¬decoded.program.TakesImport ⟨"", "STR", ["R5", "R7", "#63"]⟩ := by
    decide +kernel
  obtain ⟨⟨encoded, hencoded, hscan, hword⟩, hlocal⟩ := hstore
  obtain ⟨word, hwords, hdecodes⟩ :=
    decodes_of_assemble decoded.assembled hencoded hscan (by decide +kernel) hlocal
  have hvalue : word = ⟨0x3011, 0x7BFF, none⟩ := by simpa [hwords] using hword
  exact ⟨_, encoded, word, decoded.assembled, hencoded, hwords, congrArg _ hvalue, hdecodes⟩

end PageMachine
