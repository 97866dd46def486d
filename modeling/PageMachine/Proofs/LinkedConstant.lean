import PageMachine.Proofs.IndexedStore
import PageMachine.Proofs.Linking
import PageMachine.Proofs.RoundTrip
import PageMachine.Proofs.SuppliedConstant

/-!
# Linking against a constant

A program that imports a name is linked with a module that exports the name as a constant, and
compared word by word with the program that has the constant itself. The words agree but for one
case: a store whose index is the imported name loses the lowest bit of its base register. Sites of
the other module that lie at addresses of the program are filled besides; a module made by the
assembler has none, but a module read from a file may.
-/

namespace PageMachine

/-- Whether a program has at an address a store with a base register, whose index another module
gives under a name. -/
def Program.StoresIndexed (program : Program) (name : String) (address : Word) (base : Operand) :
    Prop :=
  ∃ encoded ∈ program.statements, ∃ stored index,
    encoded.statement.content = .machine InstructionSet.indexedStore [stored, base, index] ∧
      ∃ site ∈ encoded.imports, site.address = address ∧ site.name = name

/-- How a word of the program with the import goes with a word at the same address of the program
with the constant: nothing is to be filled in and the words are the same, or one field is left open
in the first and holds the constant in the second. -/
inductive Program.Supplied (program : Program) (name : String) (value : Word) :
    TaggedWord → TaggedWord → Prop
  | same (word : TaggedWord)
      (hsites : program.imports.filter (fun site => site.address = word.address) = []) :
      Supplied program name value word word
  | filled (encoded : EncodedStatement) (front : Word) (slot : OperandSlot) (operand : Operand)
      (hencoded : encoded ∈ program.statements) (hformed : encoded.statement.content.Formed)
      (hlast : encoded.statement.content.last? = some (front, slot, operand))
      (hrange : slot.pageRelative = true ∨ slot.InRange (value.toNat : Int))
      (hwords : encoded.words = [⟨encoded.statement.place, front, none⟩])
      (himports : encoded.imports = [⟨encoded.statement.place, slot.field, name⟩])
      (hsites : program.imports.filter (fun site => site.address = encoded.statement.place) =
        [⟨encoded.statement.place, slot.field, name⟩]) :
      Supplied program name value ⟨encoded.statement.place, front, none⟩
        ⟨encoded.statement.place, slot.field.orInto front (value.toNat : Int), none⟩

/-- Each word of the program with the import goes with a word of the program with the constant, if
the latter imports nothing. -/
theorem Layout.AlikeWith.exists_supplied_word {name : String} {value : Word} {layout twin : Layout}
    {program twinProgram : Program} (halike : layout.AlikeWith name value twin)
    (hyields : layout.Yields program) (htwin : twin.Yields twinProgram) (hsound : layout.Sound)
    (hnodup : (program.words.map TaggedWord.address).Nodup) (hclosed : twinProgram.imports = [])
    {word : TaggedWord} (hword : word ∈ program.words) :
    ∃ other ∈ twinProgram.words, program.Supplied name value word other := by
  have hown : ∀ encoded ∈ program.statements, ∀ site ∈ encoded.imports,
      ∃ word ∈ encoded.words, word.address = site.address :=
    fun encoded hencoded site hsite => hyields.exists_word_of_mem_imports hsound hencoded hsite
  rcases List.mem_append.mp hword with hstatement | hliteral
  · obtain ⟨encoded, hencoded, hword⟩ := List.mem_flatMap.mp hstatement
    obtain ⟨hformed, other, hother, hsupplied⟩ :=
      halike.exists_supplied hyields htwin hsound hencoded
    have hsites := Program.filter_imports (Program.pairwise_apart hnodup) hown hencoded hword
    have hwords : other.words ⊆ twinProgram.words := fun place hplace =>
      List.mem_append_left _ (List.mem_flatMap_of_mem hother hplace)
    cases hsupplied with
    | same hsame himports =>
      have hnone : other.imports = [] := List.flatMap_eq_nil_iff.mp hclosed other hother
      refine ⟨word, hwords (hsame ▸ hword), .same word ?_⟩
      rw [Program.imports, hsites, ← himports, hnone]
      rfl
    | filled front slot operand hlast hrange hfront himports htwinWords =>
      rw [hfront] at hword
      obtain rfl := List.mem_singleton.mp hword
      refine ⟨_, hwords (htwinWords ▸ List.mem_singleton_self _),
        .filled encoded front slot operand hencoded hformed hlast hrange hfront himports ?_⟩
      rw [Program.imports, hsites, himports]
      simp
  · refine ⟨word, List.mem_append_right _ ?_, .same word ?_⟩
    · rw [halike.literalWords_eq hyields htwin]
      exact hliteral
    · rw [List.filter_eq_nil_iff]
      intro site hsite
      obtain ⟨encoded, hencoded, hsite⟩ := List.mem_flatMap.mp hsite
      obtain ⟨place, hplace, hsame⟩ := hown encoded hencoded site hsite
      rw [Program.words, List.map_append] at hnodup
      have hne := (List.nodup_append.mp hnodup).2.2 place.address
        (List.mem_map_of_mem (List.mem_flatMap_of_mem hencoded hplace)) word.address
        (List.mem_map_of_mem hliteral)
      simpa [← hsame] using hne

namespace Program.Supplied

variable {program : Program} {name : String} {value : Word} {word other : TaggedWord}

/-- Words that go together lie at the same address. -/
theorem address_eq (h : program.Supplied name value word other) : other.address = word.address := by
  cases h <;> rfl

/-- What linking makes of the word with the import, once its own field is filled: the word with the
constant, or that word without the lowest bit of the base register. It is the former unless a store
with an odd base register has its index filled. -/
theorem fillSites_eq_iff (h : program.Supplied name value word other)
    (hnodup : (program.words.map TaggedWord.address).Nodup)
    (hown : ∀ encoded ∈ program.statements, ∀ site ∈ encoded.imports,
      ∃ word ∈ encoded.words, word.address = site.address)
    {exports : Std.ExtTreeMap String Symbol}
    (hexport : exports[name]? = some (⟨value.toNat, false, false, true⟩ : Symbol)) {linked : Word}
    {moves : Bool} {base : Option Word}
    (hlinked : linked = LinkedImage.fillSites exports
      (ObjectModule.baseWord moves base word.relocation word.value)
      (program.imports.filter fun site => site.address = word.address)) {given : Word}
    (hgiven : given = ObjectModule.baseWord moves base other.relocation other.value) :
    (linked = given ∨ linked = given &&& ~~~0x40) ∧
      (linked = given ↔ ∀ register, program.StoresIndexed name word.address register →
        ¬register.registerNumber % 2 = 1) := by
  cases h with
  | same _ hsites =>
    rw [hsites] at hlinked
    have heq : linked = given := hlinked.trans hgiven.symm
    refine ⟨.inl heq, iff_of_true heq ?_⟩
    rintro register ⟨encoded, hencoded, _, _, -, site, hsite, haddress, -⟩
    have hmem : site ∈ program.imports.filter fun site => site.address = word.address :=
      List.mem_filter.mpr ⟨List.mem_flatMap_of_mem hencoded hsite, by simpa using haddress⟩
    rw [hsites] at hmem
    cases hmem
  | filled encoded front slot operand hencoded hformed hlast hrange hwords himports hsites =>
    have hunique : ∀ register, program.StoresIndexed name encoded.statement.place register →
        ∃ stored index, encoded.statement.content =
          .machine InstructionSet.indexedStore [stored, register, index] := by
      rintro register ⟨own, hmem, stored, index, hcontent, site, hsite, haddress, -⟩
      obtain ⟨place, hplace, hsame⟩ := hown own hmem site hsite
      obtain rfl := Program.statement_unique hnodup hencoded hmem
        (hwords ▸ List.mem_singleton_self _) hplace (hsame.trans haddress).symm
      exact ⟨stored, index, hcontent⟩
    have hinsert : linked = slot.field.insert front (value.toNat : Int) := by
      rw [hlinked, hsites, ObjectModule.baseWord_none]
      simp [LinkedImage.fillSites, hexport]
    have horInto : given = slot.field.orInto front (value.toNat : Int) := by
      rw [hgiven, ObjectModule.baseWord_none]
    by_cases hstore : encoded.statement.content.IsIndexedStore
    · obtain ⟨stored, base, hcontent, hcleared, hodd⟩ :=
        hformed.insert_indexedStore hlast hstore hrange
      rw [hinsert, horInto]
      refine ⟨.inr hcleared, hodd.trans ⟨fun heven register hregister => ?_, fun hall => ?_⟩⟩
      · obtain ⟨own, index, hsame⟩ := hunique register hregister
        rw [hcontent] at hsame
        obtain ⟨-, rfl, -⟩ : stored = own ∧ base = register ∧ operand = index := by
          simpa using hsame
        exact heven
      · exact hall base ⟨encoded, hencoded, stored, operand, hcontent, _,
          himports ▸ List.mem_singleton_self _, rfl, rfl⟩
    · have heq : linked = given := by
        rw [hinsert, horInto, hformed.insert_eq_orInto hlast hstore]
      refine ⟨.inl heq, iff_of_true heq fun register hregister => ?_⟩
      obtain ⟨_, _, hcontent⟩ := hunique register hregister
      rw [hcontent] at hstore
      exact absurd rfl hstore

end Program.Supplied

/-- Sites that keep their field and name fill a word in the same way wherever they lie. -/
theorem LinkedImage.fillSites_map (exports : Std.ExtTreeMap String Symbol) (word : Word)
    (place : Word → Word) (sites : List ImportSite) :
    fillSites exports word (sites.map fun site => { site with address := place site.address }) =
      fillSites exports word sites := by
  rw [fillSites, List.foldl_map]
  rfl

/-- Filling sites and then others is filling all of them. -/
theorem LinkedImage.fillSites_append (exports : Std.ExtTreeMap String Symbol) (word : Word)
    (front back : List ImportSite) :
    fillSites exports word (front ++ back) =
      fillSites exports (fillSites exports word front) back :=
  List.foldl_append

/-- Where linking at a base takes a word of a program whose module comes first. -/
def Program.linkedAddress (program : Program) (base : Option Word) (word : TaggedWord) : Word :=
  ObjectModule.baseAddress program.relocatable base word.address

/-- A module that comes first has its program's words at their places. -/
theorem Program.LoadsAs.get?_placeFirst {program : Program} {module placed : ObjectModule}
    {base : Option Word} (hloads : program.LoadsAs module)
    (horigin : module.relocatable = true → module.origin = 0)
    (hplaced : module.placeFirst base = .ok placed) {word : TaggedWord}
    (hword : word ∈ program.words) :
    placed.memory.get? (program.linkedAddress base word) =
      some (ObjectModule.baseWord program.relocatable base word.relocation word.value) := by
  have hget := (ObjectModule.placeFirst_spec horigin hplaced).1 word.address
  rw [hloads.get?_of_mem hword, hloads.tag?_of_mem hword, hloads.relocatable] at hget
  exact hget

/-- A word of a program whose module comes first is linked from what the base makes of it, filled
by its own sites and then by those of other modules at its place. -/
theorem Program.LoadsAs.read_of_ofPlaced {program : Program} {module placed other : ObjectModule}
    {base : Option Word} {image : LinkedImage} (hloads : program.LoadsAs module)
    (horigin : module.relocatable = true → module.origin = 0)
    (hplaced : module.placeFirst base = .ok placed)
    (h : LinkedImage.ofPlaced placed [other] = .ok image) :
    ∃ exports, LinkedImage.collectExports [placed, other] = .ok exports ∧
      ∀ word ∈ program.words, image.memory.read (program.linkedAddress base word) =
        LinkedImage.fillSites exports
          (LinkedImage.fillSites exports
            (ObjectModule.baseWord program.relocatable base word.relocation word.value)
            (program.imports.filter fun site => site.address = word.address))
          (other.imports.filter fun site => site.address = program.linkedAddress base word) := by
  obtain ⟨exports, hexports, hread⟩ := LinkedImage.read_of_ofPlaced h
  have himports := (ObjectModule.placeFirst_spec horigin hplaced).2.1
  refine ⟨exports, hexports, fun word hword => ?_⟩
  have hvalue := hloads.get?_placeFirst horigin hplaced hword
  have hown : placed.imports.filter (fun site => site.address = program.linkedAddress base word) =
      (program.imports.filter fun site => site.address = word.address).map fun site =>
        { site with
          address := ObjectModule.baseAddress program.relocatable base site.address } := by
    rw [himports, hloads.imports, hloads.relocatable, List.filter_map]
    congr 2
    funext site
    simp [linkedAddress, ObjectModule.baseAddress_inj]
  rw [hread placed List.mem_cons_self _ _ hvalue, List.flatMap_cons, List.flatMap_singleton,
    List.filter_append, LinkedImage.fillSites_append]
  rw [hown, LinkedImage.fillSites_map]

/-- A program that imports a name, linked in front of a module that exports the name as a constant,
and the program that has the constant itself, linked alone, have the same words but for stores whose
index is the name: there the linker clears the lowest bit of the base register, which makes a
difference exactly when the register is odd. Sites of the other module at the place of a word are
filled afterwards. -/
theorem read_link_eq_iff_of_constantGiven {hint source givenSource name : String} {value : Word}
    {base : Option Word} {program givenProgram : Program}
    {module givenModule other : ObjectModule} {image givenImage : LinkedImage}
    (hgiven : ConstantGiven name value (Text.lines source) (Text.lines givenSource))
    (hprogram : assemble hint source = .ok program)
    (hgivenProgram : assemble hint givenSource = .ok givenProgram)
    (hload : load program.objectText = .ok module)
    (hgivenLoad : load givenProgram.objectText = .ok givenModule)
    (hexport : other.exports.get? name = some ⟨value.toNat, false, false, true⟩)
    (hlink : link [module, other] base = .ok image)
    (hgivenLink : link [givenModule] base = .ok givenImage) :
    ∃ placed otherPlaced exports, module.placeFirst base = .ok placed ∧
      other.placeAfter placed = .ok otherPlaced ∧
      LinkedImage.collectExports [placed, otherPlaced] = .ok exports ∧
      ∀ word ∈ program.words, ∃ linked,
        image.memory.read (program.linkedAddress base word) =
          LinkedImage.fillSites exports linked (otherPlaced.imports.filter fun site =>
            site.address = program.linkedAddress base word) ∧
        (linked = givenImage.memory.read (program.linkedAddress base word) ∨
          linked = givenImage.memory.read (program.linkedAddress base word) &&& ~~~0x40) ∧
        (linked = givenImage.memory.read (program.linkedAddress base word) ↔
          ∀ register, program.StoresIndexed name word.address register →
            ¬register.registerNumber % 2 = 1) ∧
        ((∀ site ∈ otherPlaced.imports, site.address ≠ program.linkedAddress base word) →
          (image.memory.read (program.linkedAddress base word) =
              givenImage.memory.read (program.linkedAddress base word) ↔
            ∀ register, program.StoresIndexed name word.address register →
              ¬register.registerNumber % 2 = 1)) := by
  have hyields := yields_of_assemble hprogram
  have hgivenYields := yields_of_assemble hgivenProgram
  have hsound := Layout.sound_ofSource hyields.errors
  have hgivenSound := Layout.sound_ofSource hgivenYields.errors
  have hloads := loadsAs_of_load hprogram hload
  have hgivenLoads := loadsAs_of_load hgivenProgram hgivenLoad
  have horigin := hloads.origin_eq_zero hyields hsound
  have hgivenOrigin := hgivenLoads.origin_eq_zero hgivenYields hgivenSound
  have hseen := (Layout.bounds_of_problems hyields.problems).2.2.2.1
  have hbound : (Layout.ofSource hint givenSource).location ≤ addressLimit :=
    Nat.le_trans (Nat.le_add_right _ _) (Layout.bounds_of_problems hgivenYields.problems).2.1
  have halike := Layout.alikeWith_of_constantGiven hgiven hyields.errors hseen hgivenYields.errors
    hbound
  have hmoves : givenProgram.relocatable = program.relocatable := by
    rw [hyields.relocatable, hgivenYields.relocatable]
    exact halike.1.relocatable.2
  obtain ⟨placed, otherPlaced, hplaced, hother, hofPlaced⟩ := exists_placed_of_link_pair hlink
  obtain ⟨exports, hexports, hread⟩ := hloads.read_of_ofPlaced horigin hplaced hofPlaced
  obtain ⟨givenPlaced, hgivenPlaced, hclosed, hmemory⟩ := exists_placed_of_link_singleton
    hgivenOrigin
    (fun site hsite => hgivenLoads.get?_exports_of_mem_imports hgivenYields hgivenSound hsite)
    hgivenLink
  have hname : exports[name]? = some (⟨value.toNat, false, false, true⟩ : Symbol) :=
    LinkedImage.getElem?_of_collectExports hexports (List.mem_cons_of_mem _ List.mem_cons_self)
      (ObjectModule.get?_exports_of_placeAfter hother hexport rfl) rfl
  refine ⟨placed, otherPlaced, exports, hplaced, hother, hexports, fun word hword => ?_⟩
  obtain ⟨givenWord, hgivenWord, hsupplied⟩ := halike.exists_supplied_word hyields hgivenYields
    hsound hloads.addresses (hgivenLoads.imports.symm.trans hclosed) hword
  have hgivenRead : givenImage.memory.read (program.linkedAddress base word) =
      ObjectModule.baseWord program.relocatable base givenWord.relocation givenWord.value := by
    have hget := hgivenLoads.get?_placeFirst hgivenOrigin hgivenPlaced hgivenWord
    rw [Program.linkedAddress, hmoves, hsupplied.address_eq] at hget
    rw [Memory.read, hmemory, Program.linkedAddress, hget]
    rfl
  obtain ⟨hcleared, hiff⟩ := hsupplied.fillSites_eq_iff hloads.addresses
    (fun encoded hencoded site hsite => hyields.exists_word_of_mem_imports hsound hencoded hsite)
    hname rfl hgivenRead
  refine ⟨_, hread word hword, hcleared, hiff, fun hnone => ?_⟩
  have hforeign : otherPlaced.imports.filter (fun site =>
      site.address = program.linkedAddress base word) = [] := by
    rw [List.filter_eq_nil_iff]
    exact fun site hsite => by simpa using hnone site hsite
  rw [hread word hword, hforeign]
  exact hiff

/-- The lines of a program that stores and loads at an index, which the given line declares. -/
def indexLines (declaration : String) : List String :=
  ["Demo     .ORIG", declaration, "         STR     R0,R1,N", "         LDR     R2,R1,N",
    "         .END"]

/-- The lines of a program that exports the index. -/
def indexExportLines : List String :=
  ["Index    .ORIG   x0100", "         .ENT    N", "N        .EQU    #0", "         .END"]

/-- The program that imports the index, and its module. -/
def indexImport : Build "main" (indexLines "         .EXT    N") :=
  .ofLines (by decide +kernel)

/-- The program that has the index itself, and its module. -/
def indexConstant : Build "main" (indexLines "N        .EQU    #0") :=
  .ofLines (by decide +kernel)

/-- The program that exports the index, and its module. -/
def indexExport : Build "main" indexExportLines :=
  .ofLines (by decide +kernel)

/-- The index is exported as the constant zero. -/
theorem get?_exports_indexExport :
    indexExport.module.exports.get? "N" = some ⟨(0 : Word).toNat, false, false, true⟩ := by
  decide +kernel

/-- The module that exports the index stays where it is. -/
theorem relocatable_indexExport : indexExport.module.relocatable = false := by
  decide +kernel

/-- The memory of the importing and the exporting module, with the index filled in. -/
def indexMemory :
    { memory // LinkedImage.combine [indexImport.module, indexExport.module] = .ok memory } :=
  okValue _ (by decide +kernel)

/-- The program that imports the index, linked in front of the one that exports it. -/
theorem link_indexImport :
    link [indexImport.module, indexExport.module] none =
      .ok ⟨indexMemory.1, indexImport.module.start, indexImport.module.segmentName⟩ := by
  have haddresses : indexMemory.1.toList.map Prod.fst = [0, 1] := by decide +kernel
  have hpage := LinkedImage.checkPage_eq_ok haddresses (by simp [pageOf])
  have hplaced : indexImport.module.placeFirst none = .ok indexImport.module := rfl
  rw [link_pair hplaced (ObjectModule.placeAfter_eq_self relocatable_indexExport _)]
  exact LinkedImage.ofPlaced_eq indexMemory.2 hpage

/-- The program that has the index itself, linked alone. -/
def indexConstantImage : { image // link [indexConstant.module] none = .ok image } :=
  okValue _ (by decide +kernel)

/-- The texts with and without the constant differ in the declaration of the index. -/
theorem constantGiven_indexLines :
    ConstantGiven "N" 0 (indexLines "         .EXT    N") (indexLines "N        .EQU    #0") :=
  .intro ["Demo     .ORIG"]
    ["         STR     R0,R1,N", "         LDR     R2,R1,N", "         .END"]
    "         .EXT    N" "N        .EQU    #0" ⟨"#0"⟩ (by decide +kernel) (by decide +kernel)
    (by decide +kernel) (by decide +kernel) (by decide +kernel) (by decide +kernel)

/-- The load at the index is linked as it is with the constant, since its field ends below the base
register. -/
theorem read_link_indexLines :
    ∃ program givenProgram module givenModule other image givenImage,
      assemble "main" (Text.unlines (indexLines "         .EXT    N")) = .ok program ∧
      assemble "main" (Text.unlines (indexLines "N        .EQU    #0")) = .ok givenProgram ∧
      load program.objectText = .ok module ∧ load givenProgram.objectText = .ok givenModule ∧
      other.exports.get? "N" = some ⟨(0 : Word).toNat, false, false, true⟩ ∧
      link [module, other] none = .ok image ∧ link [givenModule] none = .ok givenImage ∧
      image.memory.read (program.linkedAddress none ⟨1, 0x6440, none⟩) =
        givenImage.memory.read (program.linkedAddress none ⟨1, 0x6440, none⟩) := by
  have hgiven := constantGiven_indexLines
  rw [← indexImport.lines_eq, ← indexConstant.lines_eq] at hgiven
  obtain ⟨placed, otherPlaced, exports, hplaced, hother, -, hwords⟩ :=
    read_link_eq_iff_of_constantGiven hgiven indexImport.assembled indexConstant.assembled
      indexImport.loaded indexConstant.loaded get?_exports_indexExport link_indexImport
      indexConstantImage.2
  have hsame : otherPlaced = indexExport.module := by
    rw [ObjectModule.placeAfter_eq_self relocatable_indexExport] at hother
    exact (Except.ok.inj hother).symm
  have hclosed : otherPlaced.imports = [] := by
    rw [hsame]
    decide +kernel
  have hloads : ∀ encoded ∈ indexImport.program.statements, ∀ site ∈ encoded.imports,
      site.address = 1 → ¬encoded.statement.content.IsIndexedStore := by
    decide +kernel
  obtain ⟨-, -, -, -, hiff⟩ := hwords ⟨1, 0x6440, none⟩ (by decide +kernel)
  refine ⟨_, _, _, _, _, _, _, indexImport.assembled, indexConstant.assembled, indexImport.loaded,
    indexConstant.loaded, get?_exports_indexExport, link_indexImport, indexConstantImage.2,
    (hiff ?_).mpr ?_⟩
  · rw [hclosed]
    exact fun site hsite => nomatch hsite
  · rintro register ⟨encoded, hencoded, _, _, hcontent, site, hsite, haddress, -⟩
    refine absurd ?_ (hloads encoded hencoded site hsite haddress)
    rw [hcontent]
    rfl

/-- The store at the index loses the lowest bit of its base register, which the program with the
constant keeps. -/
theorem read_link_indexLines_store :
    ∃ program givenProgram module givenModule other image givenImage,
      ConstantGiven "N" 0 (Text.lines (Text.unlines (indexLines "         .EXT    N")))
        (Text.lines (Text.unlines (indexLines "N        .EQU    #0"))) ∧
      assemble "main" (Text.unlines (indexLines "         .EXT    N")) = .ok program ∧
      assemble "main" (Text.unlines (indexLines "N        .EQU    #0")) = .ok givenProgram ∧
      load program.objectText = .ok module ∧ load givenProgram.objectText = .ok givenModule ∧
      other.exports.get? "N" = some ⟨(0 : Word).toNat, false, false, true⟩ ∧
      link [module, other] none = .ok image ∧ link [givenModule] none = .ok givenImage ∧
      image.memory.read 0 = 0x7000 ∧ givenImage.memory.read 0 = 0x7040 := by
  have hgiven := constantGiven_indexLines
  rw [← indexImport.lines_eq, ← indexConstant.lines_eq] at hgiven
  have hread : indexMemory.1.read 0 = 0x7000 := by decide +kernel
  have hgivenRead : indexConstantImage.1.memory.read 0 = 0x7040 := by decide +kernel
  exact ⟨_, _, _, _, _, _, _, hgiven, indexImport.assembled, indexConstant.assembled,
    indexImport.loaded, indexConstant.loaded, get?_exports_indexExport, link_indexImport,
    indexConstantImage.2, hread, hgivenRead⟩

end PageMachine
