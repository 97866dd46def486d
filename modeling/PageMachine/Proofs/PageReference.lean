import PageMachine.LinkedImage
import PageMachine.Proofs.InstructionFields
import PageMachine.Proofs.Linking
import PageMachine.Proofs.RoundTrip

/-!
# Page references of a moved program

A page offset holds nine bits of the address it is to name; the rest comes from the program counter
when the instruction runs. Moving a program adds the base to those nine bits and drops the carry, so
that the moved instruction names the moved address exactly when that address is on the page of the
moved program counter. A program that is no longer than a page need not stay on one: the base
decides, and it does not matter whether the assembler would have refused the program there. Words
that run at another address than their own are not considered.
-/

namespace PageMachine

/-- The low bits of a word are the number in its page offset. -/
theorem toNat_orInto_pageOffset {word : Word} (value : Int)
    (h : word &&& BitRange.pageOffset.mask = 0) :
    ((BitRange.pageOffset.orInto word value).toNat % 512 : Nat) = value % 512 := by
  have hextract := BitRange.toNat_extract_place value h
  have hlow : BitRange.pageOffset.extract (word ||| BitRange.pageOffset.place value) =
      BitRange.pageOffset.orInto word value &&& 0x1FF := by
    have hmask : BitRange.pageOffset.mask = 0x1FF := by decide
    rw [BitRange.extract, hmask]
    exact BitVec.ushiftRight_zero _
  rw [hlow, toNat_and_offsetMask] at hextract
  rw [hextract, BitRange.natCast_rest]
  rfl

namespace Program

/-- Whether an operand names a value that moves with the program: that of a label or of an alias of
one, or the address of a literal. -/
inductive PointsTo (program : Program) (operand : Operand) : Int → Prop
  | label (symbol : Symbol) (hkind : operand.kind = .symbol)
      (hsome : program.symbols.get? operand.text = some symbol)
      (hmoves : symbol.relocatable = true) : PointsTo program operand symbol.value
  | literal (value place : Word) (hkind : operand.kind = .literal)
      (hparse : parseLiteral operand.text = .ok value)
      (hplace : program.literals.addressOf? value = some place) :
      PointsTo program operand place.toNat

/-- Whether a program has at an address an instruction whose page offset is to name a value that
moves with the program. -/
inductive PageReference (program : Program) : Word → Int → Prop
  | intro (encoded : EncodedStatement) (definition : InstructionDefinition)
      (operands : List Operand) (slot : OperandSlot) (operand : Operand) (value : Int)
      (word : TaggedWord) (hencoded : encoded ∈ program.statements)
      (hcontent : encoded.statement.content = .machine definition operands)
      (hpair : (slot, operand) ∈ definition.operands.zip operands)
      (hpage : slot.pageRelative = true) (hpoints : program.PointsTo operand value)
      (hword : word ∈ encoded.words) : PageReference program word.address value

end Program

namespace Layout

variable {layout : Layout} {program : Program}

/-- A relocatable program reaches from zero to the end of its literals. -/
theorem Yields.length_eq (hyields : layout.Yields program) (hsound : layout.Sound)
    (hmoves : program.relocatable = true) :
    program.length = layout.location + layout.literals.size := by
  rw [hyields.length, hsound.origin_eq (hyields.relocatable.symm.trans hmoves)]
  rfl

/-- What an operand of a relocatable program points to is what it refers to, and lies in the
program. -/
theorem Yields.target_of_pointsTo (hyields : layout.Yields program) (hsound : layout.Sound)
    (hmoves : program.relocatable = true) {operand : Operand} {value : Int}
    (hpoints : program.PointsTo operand value) :
    (layout.context program.symbols).Target operand value true ∧ 0 ≤ value ∧
      value ≤ program.length := by
  have hlength := hyields.length_eq hsound hmoves
  cases hpoints with
  | label symbol hkind hsome hmoving =>
    obtain ⟨known, hknown, hvalue, hmoves, himported⟩ := hyields.exists_known hsome
    obtain ⟨hlocal, hlow, hhigh⟩ :=
      hsound.moving operand.text known hknown (hmoves.symm.trans hmoving)
    have htarget := @EncodingContext.Target.symbol (layout.context program.symbols) operand _
      hkind hsome (himported.trans hlocal)
    rw [hmoving] at htarget
    refine ⟨htarget, ?_, ?_⟩ <;> omega
  | literal literal place hkind hparse hplace =>
    rw [hyields.literals] at hplace
    have htarget : (layout.context program.symbols).Target operand place.toNat
        (layout.context program.symbols).relocatable :=
      .literal _ _ hkind hparse hplace
    have hmoving : (layout.context program.symbols).relocatable = true :=
      hyields.relocatable.symm.trans hmoves
    rw [hmoving] at htarget
    refine ⟨htarget, Int.natCast_nonneg _, Int.ofNat_le.mpr ?_⟩
    obtain ⟨n, hindex, rfl⟩ := Option.map_eq_some_iff.mp hplace
    have hbound : n < layout.literals.size := hsound.indexed.lt_size hindex
    have hplace : layout.pool.addressAt n = BitVec.ofNat 16 (layout.location + n) := by
      rw [LiteralPool.addressAt, BitVec.ofNat_add]
      rfl
    rw [hplace, BitVec.toNat_ofNat]
    have hsmall := Nat.mod_le (layout.location + n) (2 ^ 16)
    omega

/-- A page reference of a relocatable program is a word with the value in its page offset, tagged to
move. It lies in the program, and so does what it points to. -/
theorem Yields.exists_word_of_pageReference (hyields : layout.Yields program)
    (hsound : layout.Sound) (hmoves : program.relocatable = true) {address : Word} {value : Int}
    (hreference : program.PageReference address value) :
    ∃ word : Word, word &&& BitRange.pageOffset.mask = 0 ∧
      (⟨address, BitRange.pageOffset.orInto word value, some .pageOffset⟩ : TaggedWord) ∈
        program.words ∧
      address.toNat < program.length ∧ 0 ≤ value ∧ value ≤ program.length := by
  cases hreference with
  | intro encoded definition operands slot operand value word hencoded hcontent hpair hpage hpoints
      hword =>
    obtain ⟨htarget, hlow, hhigh⟩ := hyields.target_of_pointsTo hsound hmoves hpoints
    rw [hyields.statements] at hencoded
    obtain ⟨statement, hstatement, rfl⟩ := List.mem_map.mp hencoded
    rw [Statement.statement_encode] at hcontent
    have hformed := hsound.formed statement hstatement
    have hkind : operand.kind ≠ .register := by
      rcases htarget.kind_eq with hname | hliteral <;> simp [*]
    obtain ⟨front, hlast⟩ : ∃ front, statement.content.last? = some (front, slot, operand) := by
      rw [hcontent] at hformed ⊢
      exact hformed.last?_of_mem hpair hkind
    obtain ⟨held, hresolves, hencode⟩ :=
      Statement.encode_of_last? hformed hlast (hyields.encodes statement hstatement)
    have hfield := hformed.field_eq_pageOffset hlast
    have hclear := hformed.and_mask_eq_zero_of_moving hlast (.inl hpage)
    rw [hfield hpage] at hclear hencode
    have hwords : (statement.encode (layout.context program.symbols)).words =
        [⟨statement.place, BitRange.pageOffset.orInto front value, some .pageOffset⟩] := by
      rw [hencode, hresolves.eq_number_of_target htarget, ← ObjectModule.ofMask_mask .pageOffset]
      rfl
    have hmem : (statement.encode (layout.context program.symbols)).words ⊆ program.words := by
      intro word hword
      refine List.mem_append_left _ (List.mem_flatMap_of_mem ?_ hword)
      rw [hyields.statements]
      exact List.mem_map_of_mem hstatement
    have hown := hmem hword
    rw [hwords] at hword
    obtain rfl := List.mem_singleton.mp hword
    refine ⟨front, hclear, hown, ?_, hlow, hhigh⟩
    have hsize : statement.content.size = 1 := by
      rw [hcontent]
      rfl
    have hplace := hsound.places statement hstatement
    have hstop := (bounds_of_problems hyields.problems).2.1
    have hlimit : addressLimit < maxLocation := by decide
    have hlength := hyields.length_eq hsound hmoves
    change layout.location + layout.literals.size ≤ addressLimit at hstop
    have hsmall := Nat.mod_le statement.address (2 ^ 16)
    rw [Statement.place, BitVec.toNat_ofNat]
    omega

end Layout

/-- The address that the instruction at an address names when it runs there. -/
def LinkedImage.namedAddress (image : LinkedImage) (address : Word) : Word :=
  (⟨image.memory.read address⟩ : Instruction).pageAddress (address + 1)

/-- In a relocatable program linked by itself at a base, a page reference names the moved address
exactly when that address is on the page of the program counter. All references do so when the
program and the word behind it are on one page. -/
theorem namedAddress_eq_iff_of_link {hint source : String} {base : Word} {program : Program}
    {module : ObjectModule} {image : LinkedImage} (hprogram : assemble hint source = .ok program)
    (hmoves : program.relocatable = true) (hload : load program.objectText = .ok module)
    (hlink : link [module] (some base) = .ok image) {address : Word} {value : Int}
    (hreference : program.PageReference address value) :
    (((image.namedAddress (base + address)).toNat : Int) = base.toNat + value ↔
        ((base + address + 1).toNat : Int) / pageSize = (base.toNat + value) / pageSize) ∧
      (base.toNat % pageSize + program.length < pageSize →
        ((image.namedAddress (base + address)).toNat : Int) = base.toNat + value) := by
  have hyields := yields_of_assemble hprogram
  have hsound := Layout.sound_ofSource hyields.errors
  have hloads := loadsAs_of_load hprogram hload
  obtain ⟨front, hclear, hword, haddress, hlow, hhigh⟩ :=
    hyields.exists_word_of_pageReference hsound hmoves hreference
  have hread : image.memory.read (base + address) =
      BitRange.pageOffset.orInto front (value + base.toNat) := by
    have horigin := hloads.origin_eq_zero hyields hsound
    obtain ⟨placed, hplaced, -, hmemory⟩ := exists_placed_of_link_singleton horigin
      (fun site hsite => hloads.get?_exports_of_mem_imports hyields hsound hsite) hlink
    have hget := (ObjectModule.placeFirst_spec horigin hplaced).1 address
    rw [hloads.relocatable, hmoves, hloads.get?_of_mem hword, hloads.tag?_of_mem hword] at hget
    have hplace : base + address = ObjectModule.baseAddress true (some base) address :=
      BitVec.add_comm base address
    rw [Memory.read, hmemory, hplace, hget]
    exact ObjectModule.movedWord_orInto .pageOffset value base.toNat hclear
  have hnamed : ((image.namedAddress (base + address)).toNat : Int) =
      (base + address + 1).toNat / 512 * 512 + (value + base.toNat) % 512 := by
    rw [LinkedImage.namedAddress, hread, toNat_pageAddress, Nat.cast_add,
      toNat_orInto_pageOffset _ hclear]
    rfl
  have hpage : pageSize = 512 := rfl
  have hnext : (base + address + 1).toNat = (base.toNat + address.toNat + 1) % 65536 := by
    simp [BitVec.toNat_add]
  rw [hnamed, hpage, hnext]
  constructor
  · omega
  · intro hfits
    omega

/-- The lines of a relocatable program that loads a word two places further on. -/
def loadingLines : List String :=
  ["         .ORIG", "         LD      R0,V", "         TRAP    x25", "V        .FILL   #7",
    "         .END"]

/-- The program that loads a word two places further on, and its module. -/
def loading : Build "main" loadingLines :=
  .ofLines (by decide +kernel)

/-- The first word of the program that loads is a page reference to its third. -/
theorem pageReference_loading : loading.program.PageReference 0 2 := by
  let definition : InstructionDefinition :=
    ⟨"LD", 0x2000, [InstructionSet.target, .literalPage]⟩
  let word : TaggedWord := ⟨0, 0x2002, some .pageOffset⟩
  exact .intro
    ⟨⟨2, "         LD      R0,V", 0, .machine definition [⟨"R0"⟩, ⟨"V"⟩]⟩, [word], [], []⟩
    definition _ .literalPage ⟨"V"⟩ 2 word (by decide +kernel) rfl (by decide +kernel) rfl
    (.label ⟨2, true, false, false⟩ (by decide +kernel) (by decide +kernel) rfl)
    (List.mem_singleton_self _)

/-- The image of the program that loads, linked at the beginning of a page. -/
def loadingImage : { image // link [loading.module] (some 0x3000) = .ok image } :=
  okValue _ (by decide +kernel)

/-- At the beginning of a page the reference names the word two places further on. -/
theorem namedAddress_loadingLines :
    ∃ program module image, assemble "main" (Text.unlines loadingLines) = .ok program ∧
      load program.objectText = .ok module ∧ link [module] (some 0x3000) = .ok image ∧
      ((image.namedAddress (0x3000 + 0)).toNat : Int) = (0x3000 : Word).toNat + 2 := by
  have hnamed := namedAddress_eq_iff_of_link loading.assembled (by decide +kernel) loading.loaded
    loadingImage.2 pageReference_loading
  exact ⟨_, _, _, loading.assembled, loading.loaded, loadingImage.2, hnamed.2 (by decide +kernel)⟩

/-- The image of the program that loads, linked two words before the end of a page. -/
def crossingImage : { image // link [loading.module] (some 0x1FE) = .ok image } :=
  okValue _ (by decide +kernel)

/-- Two words before the end of a page the reference names the beginning of that page, and not the
word on the next page that is two places further on. -/
theorem namedAddress_loadingLines_crossing :
    ∃ program module image, assemble "main" (Text.unlines loadingLines) = .ok program ∧
      program.relocatable = true ∧ load program.objectText = .ok module ∧
      link [module] (some 0x1FE) = .ok image ∧ program.PageReference 0 2 ∧
      image.namedAddress (0x1FE + 0) = 0 ∧
      ¬((image.namedAddress (0x1FE + 0)).toNat : Int) = (0x1FE : Word).toNat + 2 := by
  have hmoves : loading.program.relocatable = true := by decide +kernel
  have hnamed : crossingImage.1.namedAddress (0x1FE + 0) = 0 := by decide +kernel
  refine ⟨_, _, _, loading.assembled, hmoves, loading.loaded, crossingImage.2,
    pageReference_loading, hnamed, ?_⟩
  rw [hnamed]
  decide

end PageMachine
