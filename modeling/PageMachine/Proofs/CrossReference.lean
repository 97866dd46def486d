import PageMachine.Proofs.Labels
import PageMachine.Proofs.LinkResult
import PageMachine.Proofs.PageReference

/-!
# References between modules

An imported page offset is filled with the low bits of a label's final address, and the page comes
from the program counter, which is one past the instruction. Several modules share a page, so the
instruction and the label agree on it; but the check is of the instruction's own address. The
reference therefore names the label exactly when the instruction is not the last word of the page.
Fields that hold no page offset are not considered, nor is a label behind which no word is written.
-/

namespace PageMachine

/-- Words that agree in the bits of a page offset have the same offset in a page. -/
theorem toNat_mod_pageSize_eq {word other : Word}
    (h : ∀ i < 9, word.getLsbD i = other.getLsbD i) :
    word.toNat % 512 = other.toNat % 512 := by
  rw [← toNat_and_offsetMask, ← toNat_and_offsetMask]
  congr 1
  apply BitVec.eq_of_getLsbD_eq
  intro i _
  rw [BitVec.getLsbD_and, BitVec.getLsbD_and, getLsbD_offsetMask]
  by_cases hi : i < 9
  · rw [h i hi]
  · simp [hi]

/-- A number cut to a word is the same word. -/
theorem ofInt_emod_addressLimit (value : Int) :
    BitVec.ofInt 16 (value % addressLimit) = BitVec.ofInt 16 value := by
  apply BitVec.eq_of_toInt_eq
  rw [BitVec.toInt_ofInt, BitVec.toInt_ofInt]
  exact Int.emod_bmod _ _

namespace ObjectModule

/-- How far a module was moved to its place. -/
def distance (module placed : ObjectModule) : Word :=
  placed.origin - module.origin

/-- Whether a module stands at a place: its words and imports lie as far from where they were as its
origin, and so do the exports that move with it. -/
structure StandsAs (module placed : ObjectModule) : Prop where
  /-- Written are the same addresses, moved. -/
  written : ∀ address, (placed.memory.get? (address + module.distance placed)).isSome =
    (module.memory.get? address).isSome
  /-- Exports that move with the module have their values moved. -/
  exports : ∀ name symbol, module.Exports name symbol → symbol.relocatable = module.relocatable →
    ∃ moved, placed.Exports name moved ∧ moved.word = symbol.word + module.distance placed
  /-- The imports are the same, at addresses that are moved. -/
  imports : placed.imports = module.imports.map fun site =>
    { site with address := site.address + module.distance placed }

/-- A module that was not moved stands where it was. -/
theorem standsAs_self (module : ObjectModule) : module.StandsAs module := by
  have hzero : module.distance module = 0 := BitVec.sub_self _
  constructor
  · simp [hzero]
  · intro name symbol hexports _
    exact ⟨symbol, hexports, by simp [hzero]⟩
  · simp [hzero]

/-- A module that begins at zero and was moved stands at its new origin. -/
theorem MovedTo.standsAs {module placed : ObjectModule} {place : Word}
    (hmoved : module.MovedTo place placed) (horigin : module.origin = 0)
    (hmoves : module.relocatable = true) : module.StandsAs placed := by
  have hdistance : module.distance placed = place := by
    rw [distance, hmoved.origin, horigin]
    exact BitVec.sub_zero place
  constructor
  · intro address
    rw [hdistance, hmoved.words, Option.isSome_map]
  · rintro name symbol ⟨hsome, hexported⟩ hsame
    have hmoving : symbol.relocatable = true := hsame.trans hmoves
    refine ⟨symbol.shift place.toNat, ⟨?_, ?_⟩, ?_⟩
    · rw [hmoved.exports, hsome]
      rfl
    · simp [Symbol.shift, hmoving, hexported]
    · simp [Symbol.shift, Symbol.word, hmoving, hdistance, BitVec.ofInt_add]
  · rw [hdistance]
    exact hmoved.imports

/-- Whether a module was loaded from the object text of an assembled program. -/
def Assembled (module : ObjectModule) : Prop :=
  ∃ hint source program, assemble hint source = .ok program ∧ load program.objectText = .ok module

/-- A module from an assembled program was loaded from a text. -/
theorem Assembled.exists_text {module : ObjectModule} (h : module.Assembled) :
    ∃ text, load text = .ok module := by
  obtain ⟨_, _, program, -, hload⟩ := h
  exact ⟨_, hload⟩

/-- Whether a module exports a name that is the label in front of a word at an address. -/
def LabelsWord (module : ObjectModule) (name : String) (address : Word) : Prop :=
  ∃ hint source program, assemble hint source = .ok program ∧
    load program.objectText = .ok module ∧ program.LabelAt name address ∧
    (∃ word ∈ program.words, word.address = address) ∧ ∃ symbol, module.Exports name symbol

end ObjectModule

namespace LinkedImage

/-- All modules of a link stand at their places. -/
theorem Placed.standsAs {base : Option Word} {modules placed : List ObjectModule}
    (h : Placed base modules placed)
    (horigin : ∀ module ∈ modules, module.relocatable = true → module.origin = 0) :
    List.Forall₂ ObjectModule.StandsAs modules placed :=
  h.forall₂ ObjectModule.standsAs_self fun module hmem _ _ hmoves hmoved =>
    hmoved.standsAs (horigin module hmem hmoves) hmoves

/-- All words of a memory that passes the check are on one page. -/
theorem pageOf_eq_of_checkPage {memory : Memory} (h : checkPage memory = .ok ())
    {address other : Word} (haddress : (memory.get? address).isSome = true)
    (hother : (memory.get? other).isSome = true) : pageOf address = pageOf other := by
  unfold checkPage at h
  split at h
  · rename_i first last hfirst hlast
    split at h
    · rename_i hpage
      have hlow := (Memory.first?_eq_some_iff.mp hfirst).2
      have hhigh := (Memory.last?_eq_some_iff.mp hlast).2
      have hbounds := And.intro (hlow address haddress) (hhigh address haddress)
      have hothers := And.intro (hlow other hother) (hhigh other hother)
      have hpages := congrArg BitVec.toNat hpage
      rw [toNat_pageOf, toNat_pageOf] at hpages
      apply BitVec.eq_of_toNat_eq
      rw [toNat_pageOf, toNat_pageOf]
      omega
    · cases h
  · rename_i hnone
    cases hfirst : memory.first? with
    | none => simp [Memory.first?_eq_none_iff.mp hfirst address] at haddress
    | some first =>
      cases hlast : memory.last? with
      | none => simp [Memory.last?_eq_none_iff.mp hlast address] at haddress
      | some last => exact absurd hlast (hnone first last hfirst)

/-- An image of several modules has passed the check. -/
theorem checkPage_of_ofPlaced {first : ObjectModule} {rest : List ObjectModule}
    {image : LinkedImage} (hrest : rest ≠ []) (h : ofPlaced first rest = .ok image) :
    checkPage image.memory = .ok () := by
  unfold ofPlaced at h
  obtain ⟨exports, -, h⟩ := exists_of_bind_eq_ok h
  obtain ⟨joined, -, h⟩ := exists_of_bind_eq_ok h
  obtain ⟨memory, -, h⟩ := exists_of_bind_eq_ok h
  rw [if_pos (by simpa using hrest)] at h
  obtain ⟨_, hpage, h⟩ := exists_of_bind_eq_ok h
  rw [← Except.ok.inj h]
  exact hpage

/-- Behind a module as many modules are placed as there are. -/
theorem length_placeRest {previous : ObjectModule} {modules placed : List ObjectModule}
    (h : placeRest previous modules = .ok placed) : placed.length = modules.length := by
  induction modules generalizing previous placed with
  | nil =>
    obtain rfl := Except.ok.inj h
    rfl
  | cons module rest ih =>
    obtain ⟨first, -, h⟩ := exists_of_bind_eq_ok h
    obtain ⟨others, hothers, h⟩ := exists_of_bind_eq_ok h
    obtain rfl := Except.ok.inj h
    rw [List.length_cons, List.length_cons, ih hothers]

end LinkedImage

/-- All words of an image linked from several modules are on one page. -/
theorem pageOf_eq_of_link {modules : List ObjectModule} {base : Option Word} {image : LinkedImage}
    (hseveral : 2 ≤ modules.length) (h : link modules base = .ok image) {address other : Word}
    (haddress : (image.memory.get? address).isSome = true)
    (hother : (image.memory.get? other).isSome = true) : pageOf address = pageOf other := by
  cases modules with
  | nil => cases h
  | cons first rest =>
    obtain ⟨placed, others, -, hothers, hofPlaced⟩ := exists_ofPlaced_of_link h
    have hlength := LinkedImage.length_placeRest hothers
    rw [List.length_cons] at hseveral
    refine LinkedImage.pageOf_eq_of_checkPage
      (LinkedImage.checkPage_of_ofPlaced (fun hnil => ?_) hofPlaced) haddress hother
    rw [hnil, List.length_nil] at hlength
    omega

namespace LinkedImage

variable {image : LinkedImage} {modules placed : List ObjectModule}

/-- Modules with a word at the same address are the same. -/
theorem Joins.module_unique (hjoins : image.Joins placed) {module other : ObjectModule}
    (hmodule : module ∈ placed) (hother : other ∈ placed) {address : Word}
    (hword : (module.memory.get? address).isSome = true)
    (hplace : (other.memory.get? address).isSome = true) : module = other := by
  by_contra hne
  have : Std.Symm fun module other : ObjectModule => ∀ address,
      ¬((module.memory.get? address).isSome = true ∧
        (other.memory.get? address).isSome = true) :=
    ⟨fun _ _ hapart address hboth => hapart address hboth.symm⟩
  exact hjoins.disjoint.forall hmodule hother hne address ⟨hword, hplace⟩

/-- A name is exported with one symbol. -/
theorem Joins.symbol_unique (hjoins : image.Joins placed) {module other : ObjectModule}
    (hmodule : module ∈ placed) (hother : other ∈ placed) {name : String} {symbol twin : Symbol}
    (hexports : module.Exports name symbol) (htwin : other.Exports name twin) : symbol = twin := by
  by_cases hsame : module = other
  · rw [hsame] at hexports
    exact Option.some.inj (hexports.1.symm.trans htwin.1)
  · have : Std.Symm fun module other : ObjectModule => ∀ name symbol twin,
        ¬(module.Exports name symbol ∧ other.Exports name twin) :=
      ⟨fun _ _ hapart name symbol twin hboth => hapart name twin symbol hboth.symm⟩
    exact absurd ⟨hexports, htwin⟩ (hjoins.exports.forall hmodule hother hsame name symbol twin)

/-- A field that is the only one to be filled at its address holds the symbol exported under its
name. -/
theorem Joins.getLsbD_of_site (hjoins : image.Joins placed) {site : ImportSite}
    (hsite : site ∈ placed.flatMap ObjectModule.imports)
    (hunique : ∀ other ∈ placed.flatMap ObjectModule.imports, other.address = site.address →
      other = site)
    {module : ObjectModule} (hmodule : module ∈ placed) {symbol : Symbol}
    (hexports : module.Exports site.name symbol) {i : Nat} (hcovers : site.field.Covers i) :
    (image.memory.read site.address).getLsbD i = symbol.word.getLsbD (i - site.field.lsb) := by
  have hi : i < 16 := Nat.lt_of_le_of_lt hcovers.2 site.field.msb_lt
  have hover : site ∈ sitesOver placed site.address i :=
    List.mem_filter.mpr ⟨List.mem_filter.mpr ⟨hsite, by simp⟩, by simpa using hcovers⟩
  have hbit := hjoins.bits site.address i hi
  generalize (image.memory.read site.address).getLsbD i = bit at hbit ⊢
  cases hbit with
  | filled last other twin hlast hother htwin =>
    have hmem := List.mem_filter.mp (List.mem_filter.mp (List.mem_of_getLast? hlast)).1
    obtain rfl := hunique last hmem.1 (by simpa using hmem.2)
    rw [hjoins.symbol_unique hother hmodule htwin hexports]
  | kept _ _ hnone =>
    rw [hnone] at hover
    cases hover
  | unwritten hnone =>
    rw [hnone] at hover
    cases hover

end LinkedImage

/-- The import site of an assembled module lies in a word, and is the only one there. -/
theorem ObjectModule.Assembled.imports_spec {module : ObjectModule} (h : module.Assembled)
    {site : ImportSite} (hsite : site ∈ module.imports) :
    (module.memory.get? site.address).isSome = true ∧
      ∀ other ∈ module.imports, other.address = site.address → other = site := by
  obtain ⟨hint, source, program, hprogram, hload⟩ := h
  have hyields := yields_of_assemble hprogram
  have hsound := Layout.sound_ofSource hyields.errors
  have hloads := loadsAs_of_load hprogram hload
  have hown : ∀ encoded ∈ program.statements, ∀ site ∈ encoded.imports,
      ∃ word ∈ encoded.words, word.address = site.address :=
    fun encoded hencoded site hsite => hyields.exists_word_of_mem_imports hsound hencoded hsite
  rw [hloads.imports] at hsite ⊢
  obtain ⟨encoded, hencoded, hsite⟩ := List.mem_flatMap.mp hsite
  obtain ⟨word, hword, haddress⟩ := hown encoded hencoded site hsite
  constructor
  · rw [← haddress, hloads.get?_of_mem (List.mem_append_left _
      (List.mem_flatMap_of_mem hencoded hword))]
    rfl
  · intro other hother hsame
    obtain ⟨owner, howner, hother⟩ := List.mem_flatMap.mp hother
    obtain ⟨place, hplace, hlies⟩ := hown owner howner other hother
    obtain rfl := Program.statement_unique hloads.addresses hencoded howner hword hplace
      (by rw [haddress, hlies, hsame])
    rw [hyields.statements] at hencoded
    obtain ⟨statement, hstatement, rfl⟩ := List.mem_map.mp hencoded
    -- A statement has at most one import, that of its last operand.
    have hformed := hsound.formed statement hstatement
    have hclean := hyields.encodes statement hstatement
    obtain ⟨_, slot, operand, -, hlast, rfl, -⟩ :=
      statement.exists_of_mem_imports hformed hclean hsite
    obtain ⟨_, otherSlot, otherOperand, -, hotherLast, rfl, -⟩ :=
      statement.exists_of_mem_imports hformed hclean hother
    rw [hlast] at hotherLast
    cases hotherLast
    rfl

/-- The import site of an assembled module at its place lies in a word, and is the only one
there. -/
theorem ObjectModule.StandsAs.imports_spec {module stood : ObjectModule}
    (hstands : module.StandsAs stood) (hassembled : module.Assembled) {site : ImportSite}
    (hsite : site ∈ stood.imports) :
    (stood.memory.get? site.address).isSome = true ∧
      ∀ other ∈ stood.imports, other.address = site.address → other = site := by
  rw [hstands.imports] at hsite ⊢
  obtain ⟨own, hown, rfl⟩ := List.mem_map.mp hsite
  obtain ⟨hword, hunique⟩ := hassembled.imports_spec hown
  refine ⟨(hstands.written own.address).trans hword, fun other hother hsame => ?_⟩
  obtain ⟨before, hbefore, rfl⟩ := List.mem_map.mp hother
  rw [hunique before hbefore ((BitVec.add_left_inj _).mp hsame)]

/-- Whether an import site at an address, whose field is a page offset, is filled by a label of a
word at another address; both addresses are those of the modules in their places. -/
inductive CrossReference (modules placed : List ObjectModule) (address place : Word) : Prop
  | intro (module stood target targetStood : ObjectModule) (site : ImportSite) (label : Word)
      (hmodule : (module, stood) ∈ modules.zip placed) (hsite : site ∈ module.imports)
      (hfield : site.field = .pageOffset)
      (haddress : site.address + module.distance stood = address)
      (htarget : (target, targetStood) ∈ modules.zip placed)
      (hlabel : target.LabelsWord site.name label)
      (hplace : label + target.distance targetStood = place) :
      CrossReference modules placed address place

namespace LinkedImage

variable {image : LinkedImage} {modules placed : List ObjectModule}

/-- A module of a link stands at each place. -/
theorem exists_standsAs (hstand : List.Forall₂ ObjectModule.StandsAs modules placed)
    {stood : ObjectModule} (h : stood ∈ placed) :
    ∃ module ∈ modules, module.StandsAs stood := by
  obtain ⟨hlength, hpairs⟩ := List.forall₂_iff_zip.mp hstand
  rw [← List.map_snd_zip (Nat.le_of_eq hlength.symm)] at h
  obtain ⟨pair, hpair, rfl⟩ := List.mem_map.mp h
  exact ⟨pair.1, (List.of_mem_zip hpair).1, hpairs hpair⟩

/-- An import site of assembled modules that are joined at their places is the only one at its
address. -/
theorem Joins.site_unique (hjoins : image.Joins placed)
    (hassembled : ∀ module ∈ modules, module.Assembled)
    (hstand : List.Forall₂ ObjectModule.StandsAs modules placed) {site other : ImportSite}
    (hsite : site ∈ placed.flatMap ObjectModule.imports)
    (hother : other ∈ placed.flatMap ObjectModule.imports) (hsame : other.address = site.address) :
    other = site := by
  have hspec : ∀ stood ∈ placed, ∀ site ∈ stood.imports,
      (stood.memory.get? site.address).isSome = true ∧
        ∀ other ∈ stood.imports, other.address = site.address → other = site := by
    intro stood hstood site hsite
    obtain ⟨module, hmodule, hstands⟩ := exists_standsAs hstand hstood
    exact hstands.imports_spec (hassembled module hmodule) hsite
  obtain ⟨stood, hstood, hsite⟩ := List.mem_flatMap.mp hsite
  obtain ⟨owner, howner, hother⟩ := List.mem_flatMap.mp hother
  obtain ⟨hword, hunique⟩ := hspec stood hstood site hsite
  have hplace := (hspec owner howner other hother).1
  rw [hsame] at hplace
  obtain rfl := hjoins.module_unique howner hstood hplace hword
  exact hunique other hother hsame

/-- What a field that refers to another module's label holds: the low bits of the label's final
address. Both addresses are of words. -/
theorem Joins.spec_of_crossReference (hjoins : image.Joins placed)
    (hassembled : ∀ module ∈ modules, module.Assembled)
    (hstand : List.Forall₂ ObjectModule.StandsAs modules placed) {address place : Word}
    (h : CrossReference modules placed address place) :
    (image.memory.read address).toNat % 512 = place.toNat % 512 ∧
      (image.memory.get? address).isSome = true ∧ (image.memory.get? place).isSome = true := by
  have hpairs : ∀ {module stood : ObjectModule}, (module, stood) ∈ modules.zip placed →
      module.StandsAs stood := fun hpair => (List.forall₂_iff_zip.mp hstand).2 hpair
  cases h with
  | intro module stood target targetStood site label hmodule hsite hfield haddress htarget hlabel
      hplace =>
    subst haddress hplace
    obtain ⟨hint, source, program, hprogram, hload, hat, ⟨word, hword, rfl⟩, symbol, hexports⟩ :=
      hlabel
    have hyields := yields_of_assemble hprogram
    have hloads := loadsAs_of_load hprogram hload
    have hstood := (List.of_mem_zip hmodule).2
    have htargetStood := (List.of_mem_zip htarget).2
    -- The symbol that the target exports is the label's, and moves as the target does.
    obtain ⟨own, hown, hvalue, hmoves, -⟩ := hyields.get?_of_labelAt
      (Layout.sound_ofSource hyields.errors) (Layout.labelled_ofSource hyields.errors) hat
    obtain ⟨known, hknown, -, rfl⟩ := (hloads.exports _ _).mp hexports.1
    obtain rfl := Option.some.inj (hown.symm.trans hknown)
    obtain ⟨moved, hmoved, hmovedValue⟩ := (hpairs htarget).exports _ _ hexports
      (hmoves.trans hloads.relocatable.symm)
    have hplaced : ⟨site.address + module.distance stood, site.field, site.name⟩ ∈
        stood.imports := by
      rw [(hpairs hmodule).imports]
      exact List.mem_map_of_mem hsite
    have hlisted := List.mem_flatMap_of_mem hstood hplaced
    have hbit := fun i => @Joins.getLsbD_of_site _ _ hjoins _ hlisted
      (fun other hother hsame => hjoins.site_unique hassembled hstand hlisted hother hsame)
      _ htargetStood moved hmoved i
    refine ⟨toNat_mod_pageSize_eq fun i hi => ?_, ?_, ?_⟩
    · have hcovers : site.field.Covers i := by
        rw [hfield]
        exact ⟨Nat.zero_le i, Nat.le_of_lt_succ hi⟩
      have hlsb : site.field.lsb = 0 := by rw [hfield]; rfl
      have hmovedPlace : moved.word = word.address + target.distance targetStood := by
        rw [hmovedValue, ← hvalue]
        exact congrArg (· + _) (ofInt_emod_addressLimit own.value)
      rw [hbit i hcovers, hlsb, Nat.sub_zero, hmovedPlace]
    · exact (hjoins.written _).mpr (.inr ⟨stood, hstood, _, hplaced, rfl⟩)
    · refine (hjoins.written _).mpr (.inl ⟨targetStood, htargetStood, ?_⟩)
      rw [(hpairs htarget).written, hloads.get?_of_mem hword]
      rfl

end LinkedImage

/-- The modules of a link at their places. -/
def LinkedImage.placements (modules : List ObjectModule) (base : Option Word) :
    Except LinkError (List ObjectModule) :=
  match modules with
  | [] => .error .noModules
  | first :: rest => do
      let placed ← first.placeFirst base
      let others ← placeRest placed rest
      return placed :: others

/-- Two modules that can be placed are at their places. -/
theorem placements_pair {module other placed otherPlaced : ObjectModule} {base : Option Word}
    (hplaced : module.placeFirst base = .ok placed)
    (hother : other.placeAfter placed = .ok otherPlaced) :
    LinkedImage.placements [module, other] base = .ok [placed, otherPlaced] := by
  simp [LinkedImage.placements, hplaced, LinkedImage.placeRest, hother, bind, Except.bind, pure,
    Except.pure]

/-- Modules that begin at zero if they move stand at the places that a link finds for them. -/
theorem placed_of_placements {modules placed : List ObjectModule} {base : Option Word}
    (horigin : ∀ module ∈ modules, module.relocatable = true → module.origin = 0)
    (h : LinkedImage.placements modules base = .ok placed) :
    LinkedImage.Placed base modules placed := by
  cases modules with
  | nil => cases h
  | cons first rest =>
    rw [List.forall_mem_cons] at horigin
    obtain ⟨stood, hfirst, h⟩ := exists_of_bind_eq_ok h
    obtain ⟨others, hothers, h⟩ := exists_of_bind_eq_ok h
    obtain rfl := Except.ok.inj h
    exact .intro (ObjectModule.placedFirst_of_placeFirst horigin.1 hfirst)
      (LinkedImage.placedRest_of_placeRest horigin.2 hothers)

/-- Loaded modules begin at zero if they move. -/
theorem origin_of_loaded {modules : List ObjectModule}
    (hloaded : ∀ module ∈ modules, ∃ text, load text = .ok module) :
    ∀ module ∈ modules, module.relocatable = true → module.origin = 0 := by
  intro module hmem
  obtain ⟨text, htext⟩ := hloaded module hmem
  exact origin_eq_zero_of_load htext

/-- A link of loaded modules that succeeds has placed them, where they stand as they were, and joins
them there. -/
theorem exists_placements_of_link {modules : List ObjectModule} {base : Option Word}
    {image : LinkedImage} (hloaded : ∀ module ∈ modules, ∃ text, load text = .ok module)
    (h : link modules base = .ok image) :
    ∃ placed, LinkedImage.placements modules base = .ok placed ∧
      List.Forall₂ ObjectModule.StandsAs modules placed ∧ image.Joins placed := by
  have horigin := origin_of_loaded hloaded
  cases modules with
  | nil => cases h
  | cons first rest =>
    obtain ⟨placed, others, hfirst, hothers, hofPlaced⟩ := exists_ofPlaced_of_link h
    have hplaced : LinkedImage.placements (first :: rest) base = .ok (placed :: others) := by
      simp [LinkedImage.placements, hfirst, hothers, bind, Except.bind, pure, Except.pure]
    exact ⟨_, hplaced, (placed_of_placements horigin hplaced).standsAs horigin,
      LinkedImage.joins_of_ofPlaced hofPlaced⟩

/-- In modules of assembled programs that are linked together, an imported page offset names the
label that another module has in front of a word exactly when it is not in the last word of its
page; both are taken where the link has placed them. -/
theorem namedAddress_eq_iff_of_crossReference {modules : List ObjectModule} {base : Option Word}
    {image : LinkedImage} (hseveral : 2 ≤ modules.length)
    (hassembled : ∀ module ∈ modules, module.Assembled) (hlink : link modules base = .ok image) :
    ∃ placed, LinkedImage.placements modules base = .ok placed ∧
      ∀ address place, CrossReference modules placed address place →
        (image.namedAddress address = place ↔ address.toNat % pageSize ≠ pageSize - 1) := by
  have hloaded : ∀ module ∈ modules, ∃ text, load text = .ok module := by
    intro module hmem
    obtain ⟨_, _, program, -, hload⟩ := hassembled module hmem
    exact ⟨_, hload⟩
  obtain ⟨placed, hplaced, hstand, hjoins⟩ := exists_placements_of_link hloaded hlink
  refine ⟨placed, hplaced, fun address place hreference => ?_⟩
  obtain ⟨hoffset, hword, htarget⟩ := hjoins.spec_of_crossReference hassembled hstand hreference
  have hpage := congrArg BitVec.toNat (pageOf_eq_of_link hseveral hlink hword htarget)
  rw [toNat_pageOf, toNat_pageOf] at hpage
  have hnext : (address + 1).toNat = (address.toNat + 1) % 65536 := by simp [BitVec.toNat_add]
  have hsize : pageSize = 512 := rfl
  have hsmall := address.isLt
  rw [← BitVec.toNat_inj, LinkedImage.namedAddress, toNat_pageAddress, hoffset, hnext, hsize]
  omega

/-- The module of a build is the load of an assembled program. -/
theorem Build.module_assembled {hint : String} {lines : List String} (build : Build hint lines) :
    build.module.Assembled :=
  ⟨_, _, _, build.assembled, build.loaded⟩

/-- The routine's module labels its first word. -/
theorem labelsWord_called : called.module.LabelsWord "Sub" 0 := by
  let word : TaggedWord := ⟨0, 0xD000, none⟩
  refine ⟨_, _, _, called.assembled, called.loaded, ?_, ⟨word, by decide +kernel, rfl⟩,
    ⟨0, true, false, true⟩, by decide +kernel, rfl⟩
  exact .intro ⟨⟨3, "Sub      RET", 0, .machine ⟨"RET", 0xD000, []⟩ []⟩, [word], [], []⟩
    ⟨"Sub", "RET", []⟩ (by decide +kernel) (by decide +kernel) rfl (by decide) (by decide)

/-- The call refers to the routine behind the calling module. -/
theorem crossReference_calling :
    CrossReference [calling.module, called.module] [callingPlaced.1, calledPlaced.1]
      0x3000 0x3002 :=
  .intro calling.module callingPlaced.1 called.module calledPlaced.1 ⟨0, .pageOffset, "Sub"⟩ 0
    (by simp) (by decide +kernel) rfl (by decide +kernel) (by simp) labelsWord_called
    (by decide +kernel)

/-- Linked at the beginning of a page, the call names the routine. -/
theorem namedAddress_calling :
    ∃ module other image placed, link [module, other] (some 0x3000) = .ok image ∧
      LinkedImage.placements [module, other] (some 0x3000) = .ok placed ∧
      CrossReference [module, other] placed 0x3000 0x3002 ∧
      image.namedAddress 0x3000 = 0x3002 := by
  obtain ⟨placed, hplaced, hnamed⟩ := namedAddress_eq_iff_of_crossReference (by decide)
    (by simp [calling.module_assembled, called.module_assembled]) link_calling
  have hpair := placements_pair callingPlaced.2 placeAfter_calling
  obtain rfl := Except.ok.inj (hpair.symm.trans hplaced)
  exact ⟨_, _, _, _, link_calling, hpair, crossReference_calling,
    (hnamed _ _ crossReference_calling).mpr (by decide)⟩

/-- The lines of a program that only calls a routine of another module. -/
def lastCallLines : List String :=
  ["         .ORIG", "         .EXT    Sub", "         JSR     Sub", "         .END"]

/-- The program that only calls a routine of another module, and its own module. -/
def lastCall : Build "main" lastCallLines :=
  .ofLines (by decide +kernel)

/-- The lines of a module that exports a routine at a place of its own. -/
def fixedRoutineLines : List String :=
  ["         .ORIG   x0100", "         .ENT    Sub", "Sub      TRAP    x25", "         .END"]

/-- The module that exports a routine at a place of its own, with its program. -/
def fixedRoutine : Build "sub" fixedRoutineLines :=
  .ofLines (by decide +kernel)

/-- The calling module in the last word of the first page. -/
def lastCallPlaced : { placed // lastCall.module.placeFirst (some 0x1FF) = .ok placed } :=
  okValue _ (by decide +kernel)

/-- The memory of the call and the routine. -/
def lastCallMemory :
    { memory // LinkedImage.combine [lastCallPlaced.1, fixedRoutine.module] = .ok memory } :=
  okValue _ (by decide +kernel)

/-- The routine's module stays. -/
theorem placeAfter_fixedRoutine :
    fixedRoutine.module.placeAfter lastCallPlaced.1 = .ok fixedRoutine.module :=
  ObjectModule.placeAfter_eq_self (by decide +kernel) _

/-- The call and the routine are linked, since both words are on the first page. -/
theorem link_lastCall :
    link [lastCall.module, fixedRoutine.module] (some 0x1FF) =
      .ok ⟨lastCallMemory.1, lastCallPlaced.1.start, lastCallPlaced.1.segmentName⟩ := by
  have haddresses : lastCallMemory.1.toList.map Prod.fst = [0x100, 0x1FF] := by decide +kernel
  have hpage := LinkedImage.checkPage_eq_ok haddresses (by simp [pageOf])
  rw [link_pair lastCallPlaced.2 placeAfter_fixedRoutine]
  exact LinkedImage.ofPlaced_eq lastCallMemory.2 hpage

/-- The routine's module labels its only word. -/
theorem labelsWord_fixedRoutine : fixedRoutine.module.LabelsWord "Sub" 0x100 := by
  let word : TaggedWord := ⟨0x100, 0xF025, none⟩
  refine ⟨_, _, _, fixedRoutine.assembled, fixedRoutine.loaded, ?_,
    ⟨word, by decide +kernel, rfl⟩, ⟨0x100, false, false, true⟩, by decide +kernel, rfl⟩
  exact .intro
    ⟨⟨3, "Sub      TRAP    x25", 0x100, .machine ⟨"TRAP", 0xF000, [.vector]⟩ [⟨"x25"⟩]⟩, [word],
      [], []⟩
    ⟨"Sub", "TRAP", ["x25"]⟩ (by decide +kernel) (by decide +kernel) rfl (by decide) (by decide)

/-- The call in the last word of the page refers to the routine on it. -/
theorem crossReference_lastCall :
    CrossReference [lastCall.module, fixedRoutine.module]
      [lastCallPlaced.1, fixedRoutine.module] 0x1FF 0x100 :=
  .intro lastCall.module lastCallPlaced.1 fixedRoutine.module fixedRoutine.module
    ⟨0, .pageOffset, "Sub"⟩ 0x100 (by simp) (by decide +kernel) rfl (by decide +kernel) (by simp)
    labelsWord_fixedRoutine (by decide +kernel)

/-- In the last word of the first page, the call names the same offset on the second page. -/
theorem namedAddress_lastCall :
    ∃ module other image placed, module.Assembled ∧ other.Assembled ∧
      link [module, other] (some 0x1FF) = .ok image ∧
      LinkedImage.placements [module, other] (some 0x1FF) = .ok placed ∧
      CrossReference [module, other] placed 0x1FF 0x100 ∧
      image.namedAddress 0x1FF = 0x300 ∧ ¬image.namedAddress 0x1FF = 0x100 := by
  have hnamed : (⟨lastCallMemory.1, lastCallPlaced.1.start, lastCallPlaced.1.segmentName⟩ :
      LinkedImage).namedAddress 0x1FF = 0x300 := by
    decide +kernel
  refine ⟨_, _, _, _, lastCall.module_assembled, fixedRoutine.module_assembled, link_lastCall,
    placements_pair lastCallPlaced.2 placeAfter_fixedRoutine, crossReference_lastCall, hnamed, ?_⟩
  rw [hnamed]
  decide

end PageMachine
