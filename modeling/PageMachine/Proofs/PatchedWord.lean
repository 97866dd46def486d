import PageMachine.Proofs.CrossReference

/-!
# Words at the import sites of other modules

A link fills import sites by their addresses, in the memory of all modules. The segment of a module
holds its sites but may be larger than what is written of it, and two modules overlap only where
both have words. A site outside the words of its module can therefore lie in a word of another
module, such as the one that was placed behind it in what it only reserved. Such a site strays. A
word is kept outside the sites of its own module exactly if the stray sites there leave each bit as
it was, and modules that fill their own words have none of them. Assembled modules are of this kind.
-/

namespace PageMachine

namespace ObjectModule

/-- Whether an import site of a module covers a bit at an address. -/
def Fills (module : ObjectModule) (address : Word) (i : Nat) : Prop :=
  ∃ site ∈ module.imports, site.address = address ∧ site.field.Covers i

/-- Whether the import sites of a module lie in its own words. -/
def FillsOwnWords (module : ObjectModule) : Prop :=
  ∀ site ∈ module.imports, (module.memory.get? site.address).isSome = true

/-- An assembled module fills its own words. -/
theorem Assembled.fillsOwnWords {module : ObjectModule} (h : module.Assembled) :
    module.FillsOwnWords :=
  fun _ hsite => (h.imports_spec hsite).1

/-- A module that fills its own words does so in its place. -/
theorem StandsAs.fillsOwnWords {module stood : ObjectModule} (hstands : module.StandsAs stood)
    (h : module.FillsOwnWords) : stood.FillsOwnWords := by
  intro site hsite
  rw [hstands.imports] at hsite
  obtain ⟨own, hown, rfl⟩ := List.mem_map.mp hsite
  exact (hstands.written own.address).trans (h own hown)

end ObjectModule

namespace LinkedImage

/-- The sites over a bit whose modules have no word there. -/
def straySites (placed : List ObjectModule) (address : Word) (i : Nat) : List ImportSite :=
  sitesOver (placed.filter fun module => (module.memory.get? address).isNone) address i

/-- Whether a bit has a certain value after stray sites are filled: there are none, or the last one
takes that value from what is exported under its name. -/
def StraysAgree (placed : List ObjectModule) (address : Word) (i : Nat) (bit : Bool) : Prop :=
  ∀ site, (straySites placed address i).getLast? = some site →
    ∀ module ∈ placed, ∀ symbol, module.Exports site.name symbol →
      symbol.word.getLsbD (i - site.field.lsb) = bit

/-- Whether an image has the word of a module, except in what the module itself imports there. -/
def KeepsWord (image : LinkedImage) (module : ObjectModule) (address word : Word) : Prop :=
  ∀ i < 16, ¬module.Fills address i →
    (image.memory.read address).getLsbD i = word.getLsbD i

/-- The sites over a bit, module by module. -/
theorem sitesOver_cons (module : ObjectModule) (rest : List ObjectModule) (address : Word)
    (i : Nat) :
    sitesOver (module :: rest) address i =
      sitesOver [module] address i ++ sitesOver rest address i := by
  simp [sitesOver]

/-- A module has sites over a bit if it fills the bit. -/
theorem sitesOver_singleton_eq_nil {module : ObjectModule} {address : Word} {i : Nat}
    (h : ¬module.Fills address i) : sitesOver [module] address i = [] := by
  rw [List.eq_nil_iff_forall_not_mem]
  intro site hsite
  obtain ⟨hsite, hcovers⟩ := List.mem_filter.mp hsite
  obtain ⟨hsite, haddress⟩ := List.mem_filter.mp hsite
  exact h ⟨site, by simpa using hsite, by simpa using haddress, by simpa using hcovers⟩

/-- If no module that has a word at an address fills a bit of it, all sites over the bit stray. -/
theorem sitesOver_eq_straySites {modules : List ObjectModule} {address : Word} {i : Nat}
    (h : ∀ module ∈ modules, (module.memory.get? address).isSome = true →
      ¬module.Fills address i) :
    sitesOver modules address i = straySites modules address i := by
  unfold straySites
  induction modules with
  | nil => rfl
  | cons module rest ih =>
    rw [List.forall_mem_cons] at h
    rw [sitesOver_cons, ih h.2, List.filter_cons]
    cases hword : module.memory.get? address with
    | none =>
      rw [if_pos (by rfl)]
      exact (sitesOver_cons module _ address i).symm
    | some word =>
      rw [sitesOver_singleton_eq_nil (h.1 (by rw [hword]; rfl)), if_neg (by simp)]
      rfl

/-- A module that fills its own words has no stray sites. -/
theorem straySites_eq_nil {placed : List ObjectModule}
    (h : ∀ module ∈ placed, module.FillsOwnWords) (address : Word) (i : Nat) :
    straySites placed address i = [] := by
  rw [List.eq_nil_iff_forall_not_mem]
  intro site hsite
  obtain ⟨hsite, haddress⟩ := List.mem_filter.mp (List.mem_filter.mp hsite).1
  obtain ⟨module, hmodule, hsite⟩ := List.mem_flatMap.mp hsite
  obtain ⟨hmodule, hfree⟩ := List.mem_filter.mp hmodule
  have hword := h module hmodule site hsite
  rw [of_decide_eq_true haddress] at hword
  rw [Option.isNone_iff_eq_none.mp hfree] at hword
  cases hword

variable {image : LinkedImage} {placed : List ObjectModule}

/-- A bit that its own module does not fill is that of the word exactly if the stray sites give it
the same value. -/
theorem Joins.getLsbD_eq_iff (hjoins : image.Joins placed) {module : ObjectModule}
    (hmodule : module ∈ placed) {address word : Word}
    (hword : module.memory.get? address = some word) {i : Nat} (hi : i < 16)
    (hfree : ¬module.Fills address i) :
    (image.memory.read address).getLsbD i = word.getLsbD i ↔
      StraysAgree placed address i (word.getLsbD i) := by
  have hown : ∀ other ∈ placed, (other.memory.get? address).isSome = true → other = module :=
    fun other hother hplace => hjoins.module_unique hother hmodule hplace (by rw [hword]; rfl)
  have hstray : sitesOver placed address i = straySites placed address i :=
    sitesOver_eq_straySites fun other hother hplace => hown other hother hplace ▸ hfree
  have hbit := hjoins.bits address i hi
  generalize (image.memory.read address).getLsbD i = bit at hbit ⊢
  cases hbit with
  | filled site other symbol hlast hother hexports =>
    rw [hstray] at hlast
    constructor
    · intro hsame last hlast' twin htwin symbol' hexports'
      obtain rfl := Option.some.inj (hlast.symm.trans hlast')
      rw [hjoins.symbol_unique htwin hother hexports' hexports]
      exact hsame
    · intro hagree
      exact hagree site hlast other hother symbol hexports
  | kept other otherWord hnone hother hotherWord =>
    obtain rfl := hown other hother (by rw [hotherWord]; rfl)
    obtain rfl := Option.some.inj (hotherWord.symm.trans hword)
    rw [hstray] at hnone
    simp [StraysAgree, hnone]
  | unwritten _ hunwritten =>
    rw [hunwritten module hmodule] at hword
    cases hword

/-- A word is kept exactly if the stray sites over it give each of its bits the same value. -/
theorem Joins.keepsWord_iff (hjoins : image.Joins placed) {module : ObjectModule}
    (hmodule : module ∈ placed) {address word : Word}
    (hword : module.memory.get? address = some word) :
    image.KeepsWord module address word ↔
      ∀ i < 16, ¬module.Fills address i → StraysAgree placed address i (word.getLsbD i) := by
  constructor
  · intro hkeeps i hi hfree
    exact (hjoins.getLsbD_eq_iff hmodule hword hi hfree).mp (hkeeps i hi hfree)
  · intro hagree i hi hfree
    exact (hjoins.getLsbD_eq_iff hmodule hword hi hfree).mpr (hagree i hi hfree)

/-- Modules that fill their own words keep those of the others. -/
theorem Joins.keepsWord (hjoins : image.Joins placed)
    (hown : ∀ module ∈ placed, module.FillsOwnWords) {module : ObjectModule}
    (hmodule : module ∈ placed) {address word : Word}
    (hword : module.memory.get? address = some word) : image.KeepsWord module address word := by
  rw [hjoins.keepsWord_iff hmodule hword]
  intro i _ _ site hlast
  rw [straySites_eq_nil hown] at hlast
  cases hlast

end LinkedImage

/-- What a link of loaded modules makes of their words: outside the import sites of its own module a
word is kept exactly if the stray sites over it give its bits their values; and all words are kept
if each module was assembled or fills its own words. -/
theorem keepsWord_iff_of_link {modules : List ObjectModule} {base : Option Word}
    {image : LinkedImage} (hloaded : ∀ module ∈ modules, ∃ text, load text = .ok module)
    (h : link modules base = .ok image) :
    ∃ placed, LinkedImage.placements modules base = .ok placed ∧
      (∀ module ∈ placed, ∀ address word, module.memory.get? address = some word →
        (image.KeepsWord module address word ↔ ∀ i < 16, ¬module.Fills address i →
          LinkedImage.StraysAgree placed address i (word.getLsbD i))) ∧
      ((∀ module ∈ modules, module.Assembled ∨ module.FillsOwnWords) →
        ∀ module ∈ placed, ∀ address word, module.memory.get? address = some word →
          image.KeepsWord module address word) := by
  obtain ⟨placed, hplaced, hstand, hjoins⟩ := exists_placements_of_link hloaded h
  refine ⟨placed, hplaced, fun module hmodule address word hword =>
    hjoins.keepsWord_iff hmodule hword, fun hown module hmodule address word hword =>
    hjoins.keepsWord (fun stood hstood => ?_) hmodule hword⟩
  obtain ⟨original, horiginal, hstands⟩ := LinkedImage.exists_standsAs hstand hstood
  exact hstands.fillsOwnWords
    ((hown original horiginal).elim ObjectModule.Assembled.fillsOwnWords id)

/-- The word of `called` stays as it is behind the call of `calling`, which is filled. -/
theorem keepsWord_calling :
    ∃ module other image placed, link [module, other] (some 0x3000) = .ok image ∧
      LinkedImage.placements [module, other] (some 0x3000) = .ok placed ∧
      ∃ stood ∈ placed, stood.memory.get? 0x3002 = some 0xD000 ∧
        image.KeepsWord stood 0x3002 0xD000 := by
  obtain ⟨placed, hplaced, -, hkept⟩ := keepsWord_iff_of_link
    (fun _ hmem => calling.loaded_of_mem_pair called hmem) link_calling
  have hpair := placements_pair callingPlaced.2 placeAfter_calling
  obtain rfl := Except.ok.inj (hpair.symm.trans hplaced)
  have hassembled : ∀ module ∈ [calling.module, called.module],
      module.Assembled ∨ module.FillsOwnWords := by
    simp [calling.module_assembled, called.module_assembled]
  have hword : calledPlaced.1.memory.get? 0x3002 = some 0xD000 := by decide +kernel
  exact ⟨_, _, _, _, link_calling, hpair, calledPlaced.1, by simp, hword,
    hkept hassembled _ (by simp) _ _ hword⟩

/-- A module that imports into the second of its two words, which is only reserved. -/
def straying : { module //
    load "HA     MMMM0002\nT00001021\nI0001F0K\nE0000\n" = .ok module } :=
  okValue _ (by decide +kernel)

/-- A module of one word that exports a constant. -/
def strayedInto : { module //
    load "HB     MMMM0001\nT00001234\nXA0007K\nE0000\n" = .ok module } :=
  okValue _ (by decide +kernel)

/-- The module of one word, behind the only written word of the one that strays. -/
def strayedIntoPlaced : { placed // strayedInto.1.relocate 1 = .ok placed } :=
  okValue _ (by decide +kernel)

/-- The memory of the module that strays and the one that it patches. -/
def strayedMemory :
    { memory // LinkedImage.combine [straying.1, strayedIntoPlaced.1] = .ok memory } :=
  okValue _ (by decide +kernel)

/-- The module of one word is placed behind the word of the one that strays. -/
theorem placeAfter_straying : strayedInto.1.placeAfter straying.1 = .ok strayedIntoPlaced.1 := by
  have hlast : straying.1.last? = some 0 := by
    rw [ObjectModule.last?, Memory.last?_eq_getLast?]
    decide +kernel
  have hnext : straying.1.nextAddress = 1 := by
    rw [ObjectModule.nextAddress, hlast]
    rfl
  have hmoves : strayedInto.1.relocatable = true := by decide +kernel
  rw [ObjectModule.placeAfter, hnext, hmoves]
  exact strayedIntoPlaced.2

/-- The module that strays and the one that it patches are linked. -/
theorem link_straying :
    link [straying.1, strayedInto.1] none =
      .ok ⟨strayedMemory.1, straying.1.start, straying.1.segmentName⟩ := by
  have haddresses : strayedMemory.1.toList.map Prod.fst = [0, 1] := by decide +kernel
  have hpage := LinkedImage.checkPage_eq_ok haddresses (by simp [pageOf])
  rw [link_pair (show straying.1.placeFirst none = .ok straying.1 from rfl) placeAfter_straying]
  exact LinkedImage.ofPlaced_eq strayedMemory.2 hpage

/-- The second module imports nothing, and yet its word is overwritten at the site of the first. -/
theorem not_keepsWord_straying :
    ∃ image placed stood, (∃ text, load text = .ok straying.1) ∧
      (∃ text, load text = .ok strayedInto.1) ∧
      link [straying.1, strayedInto.1] none = .ok image ∧
      LinkedImage.placements [straying.1, strayedInto.1] none = .ok placed ∧ stood ∈ placed ∧
      stood.memory.get? 1 = some 0x1234 ∧ stood.imports = [] ∧ image.memory.read 1 = 7 ∧
      ¬image.KeepsWord stood 1 0x1234 := by
  have himports : strayedIntoPlaced.1.imports = [] := by decide +kernel
  have hread : strayedMemory.1.read 1 = 7 := by decide +kernel
  refine ⟨_, _, strayedIntoPlaced.1, ⟨_, straying.2⟩, ⟨_, strayedInto.2⟩, link_straying,
    placements_pair rfl placeAfter_straying, by simp, by decide +kernel, himports, hread,
    fun hkeeps => ?_⟩
  have hfree : ¬strayedIntoPlaced.1.Fills 1 0 := by
    rintro ⟨site, hsite, -⟩
    rw [himports] at hsite
    cases hsite
  have hbit := hkeeps 0 (by decide) hfree
  rw [show (⟨strayedMemory.1, straying.1.start, straying.1.segmentName⟩ :
    LinkedImage).memory.read 1 = 7 from hread] at hbit
  exact absurd hbit (by decide)

end PageMachine
