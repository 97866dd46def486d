import PageMachine.Proofs.AcceptedFile
import PageMachine.Proofs.LinkResult
import PageMachine.Proofs.RecordCodec

/-!
# Linked images as object files

An image is written as an absolute object file without imports and exports. Such a file is loaded
unless its length, counted as a word, comes out as zero though there are words: that is when words
and start together reach both ends of memory. A loaded file gives the image back, and so does
linking it once more. Images that no link has built are left out; their segment may have any name.
-/

namespace PageMachine

namespace Record

/-- Whether a name is one that a header can hold: of full length, and ASCII in a single line. -/
structure IsSegmentName (name : String) : Prop where
  /-- It has the full length. -/
  length : name.toList.length = nameLength
  /-- It is ASCII. -/
  ascii : ∀ c ∈ name.toList, c.toNat < 128
  /-- It is on one line. -/
  line : '\n' ∉ name.toList

/-- A line that is read as a header has the segment name in its columns. -/
theorem subset_of_ofChars_header {line : List Char} {name : String} {origin : Option Word}
    {length : Word} (h : ofChars line = .ok (.header name origin length)) :
    name.toList ⊆ line := by
  have hspells := spells_of_ofChars h
  obtain ⟨hlength, -⟩ := hspells.hasLine
  have hcut : 'H' :: name.toList <+: (Record.header name origin length).toChars :=
    ⟨(origin.map wordText).getD relocatableOrigin ++ wordText length, by
      simp [toChars, segmentName_eq_self hlength]⟩
  have hcolumns :
      ('H' :: name.toList).length ≤ (Record.header name origin length).digitColumns.1 := by
    cases origin <;> simp [digitColumns, hlength, nameLength]
  have hfront := List.prefix_take_iff.mpr ⟨hcut, hcolumns⟩
  rw [← hspells.take_eq] at hfront
  exact fun c hc => List.mem_of_mem_take (hfront.subset (List.mem_cons_of_mem _ hc))

end Record

/-- A loaded module has a name that a header can hold. -/
theorem isSegmentName_of_load {text : String} {module : ObjectModule}
    (h : load text = .ok module) : Record.IsSegmentName module.segmentName := by
  obtain ⟨header, body, start, hlines, -, hholds⟩ := load_eq_ok_iff.mp h
  obtain ⟨line, rest, hcontent, hread, -⟩ := List.map_eq_cons_iff.mp hlines
  obtain ⟨hlength, hascii⟩ := (Record.spells_of_ofChars hread).hasLine
  rw [hholds.segmentName]
  refine ⟨hlength, hascii, fun hmem => ?_⟩
  have hline : line ∈ Text.contentLines text := by simp [hcontent]
  exact Text.newline_not_mem_contentLines hline (Record.subset_of_ofChars_header hread hmem)

namespace LinkedImage

/-- The header of the file that holds an image. -/
def head (image : LinkedImage) : Header where
  segmentName := image.segmentName
  origin := some image.first
  length := image.length

/-- The records of that file between its header and its end. -/
def content (image : LinkedImage) : List Record :=
  image.memory.toList.map fun entry => .text ⟨entry.1, entry.2, none⟩

/-- The records of that file are its header, the words and the end. -/
theorem records_eq (image : LinkedImage) :
    image.records = image.head.record :: image.content ++ [.finish image.start] :=
  rfl

/-- Whether an address is that of a word of an image or of its start. -/
def Reaches (image : LinkedImage) (address : Word) : Prop :=
  (image.memory.get? address).isSome = true ∨ address = image.start

instance (image : LinkedImage) (address : Word) : Decidable (image.Reaches address) :=
  inferInstanceAs (Decidable (_ ∨ _))

/-- Whether an image with words has both the lowest and the highest address. -/
def SpansMemory (image : LinkedImage) : Prop :=
  (∃ address, (image.memory.get? address).isSome = true) ∧ image.Reaches 0 ∧ image.Reaches 0xFFFF

/-- The segment of an image begins at its lowest address. -/
theorem first_spec (image : LinkedImage) :
    image.Reaches image.first ∧
      ∀ address, image.Reaches address → image.first.toNat ≤ address.toNat := by
  unfold first
  split
  · rename_i lowest hlowest
    obtain ⟨hwritten, hmin⟩ := Memory.first?_eq_some_iff.mp hlowest
    split
    · rename_i hle
      refine ⟨.inl hwritten, ?_⟩
      rintro address (haddress | rfl)
      · exact hmin address haddress
      · exact hle
    · rename_i hgt
      refine ⟨.inr rfl, ?_⟩
      rintro address (haddress | rfl)
      · exact Nat.le_trans (Nat.le_of_not_le hgt) (hmin address haddress)
      · exact Nat.le_refl _
  · rename_i hnone
    refine ⟨.inr rfl, ?_⟩
    rintro address (haddress | rfl)
    · simp [Memory.first?_eq_none_iff.mp hnone address] at haddress
    · exact Nat.le_refl _

/-- The segment of an image ends at its highest address. -/
theorem last_spec (image : LinkedImage) :
    image.Reaches image.last ∧
      ∀ address, image.Reaches address → address.toNat ≤ image.last.toNat := by
  unfold last
  split
  · rename_i highest hhighest
    obtain ⟨hwritten, hmax⟩ := Memory.last?_eq_some_iff.mp hhighest
    split
    · rename_i hle
      refine ⟨.inl hwritten, ?_⟩
      rintro address (haddress | rfl)
      · exact hmax address haddress
      · exact hle
    · rename_i hgt
      refine ⟨.inr rfl, ?_⟩
      rintro address (haddress | rfl)
      · exact Nat.le_trans (hmax address haddress) (Nat.le_of_not_le hgt)
      · exact Nat.le_refl _
  · rename_i hnone
    refine ⟨.inr rfl, ?_⟩
    rintro address (haddress | rfl)
    · simp [Memory.last?_eq_none_iff.mp hnone address] at haddress
    · exact Nat.le_refl _

/-- An image without words has an empty segment. -/
theorem length_eq_zero {image : LinkedImage}
    (h : ∀ address, image.memory.get? address = none) : image.length = 0 :=
  if_pos (Memory.size_eq_zero_iff.mpr h)

/-- The segment of an image with words reaches from its lowest to its highest address, unless these
are all addresses, whose number is no word. -/
theorem toNat_length {image : LinkedImage} {address : Word}
    (h : (image.memory.get? address).isSome = true) :
    image.length.toNat = (image.last.toNat - image.first.toNat + 1) % addressLimit := by
  have hsize : ¬image.memory.size = 0 := by
    intro hsize
    rw [Memory.size_eq_zero_iff.mp hsize address] at h
    cases h
  have horder := image.first_spec.2 image.last image.last_spec.1
  rw [length, if_neg hsize, BitVec.toNat_add, BitVec.toNat_sub_of_le horder]
  rfl

/-- The length of an image's segment is lost exactly when it spans memory. -/
theorem spansMemory_iff {image : LinkedImage} {address : Word}
    (h : (image.memory.get? address).isSome = true) :
    image.SpansMemory ↔ image.length.toNat = 0 := by
  have horder := image.first_spec.2 image.last image.last_spec.1
  have hlast := image.last.isLt
  have hspans : image.SpansMemory ↔ image.first.toNat = 0 ∧ image.last.toNat = 0xFFFF := by
    constructor
    · rintro ⟨-, hlow, hhigh⟩
      have hfirst := image.first_spec.2 0 hlow
      have hend := image.last_spec.2 0xFFFF hhigh
      have hzero : (0 : Word).toNat = 0 := rfl
      have hmax : (0xFFFF : Word).toNat = 0xFFFF := rfl
      omega
    · rintro ⟨hlow, hhigh⟩
      have hfirst : image.first = 0 := BitVec.eq_of_toNat_eq hlow
      have hend : image.last = 0xFFFF := BitVec.eq_of_toNat_eq hhigh
      exact ⟨⟨address, h⟩, hfirst ▸ image.first_spec.1, hend ▸ image.last_spec.1⟩
  rw [hspans, toNat_length h, addressLimit]
  omega

/-- The segment of an image holds its words and its start, unless it spans memory. -/
theorem contains_head {image : LinkedImage} (hspans : ¬image.SpansMemory) {address place : Word}
    (hword : (image.memory.get? address).isSome = true) (hplace : image.Reaches place) :
    image.head.Contains place := by
  have hfirst := image.first_spec.2 place hplace
  have hlast := image.last_spec.2 place hplace
  have hlength := toNat_length hword
  rw [spansMemory_iff hword, hlength] at hspans
  have hend := image.last.isLt
  rw [Header.Contains]
  change image.first.toNat ≤ _ ∧ _ < image.first.toNat + image.length.toNat
  rw [hlength]
  rw [addressLimit] at hspans ⊢
  omega

/-- The segment of an image does not reach beyond memory. -/
theorem head_fits (image : LinkedImage) :
    image.head.first.toNat + image.head.length.toNat ≤ addressLimit := by
  change image.first.toNat + image.length.toNat ≤ addressLimit
  by_cases hempty : ∀ address, image.memory.get? address = none
  · rw [length_eq_zero hempty, addressLimit]
    exact Nat.le_of_lt image.first.isLt
  · obtain ⟨address, hword⟩ := not_forall.mp hempty
    have horder := image.first_spec.2 image.last image.last_spec.1
    have hend := image.last.isLt
    rw [toNat_length (Option.isSome_iff_ne_none.mpr hword), addressLimit]
    omega

/-- The header of an image admits its words, unless the image spans memory. -/
theorem admits_content {image : LinkedImage} (hspans : ¬image.SpansMemory) :
    image.head.Admits image.content where
  kinds := by
    intro record hrecord
    obtain ⟨entry, -, rfl⟩ := List.mem_map.mp hrecord
    trivial
  words := by
    intro word hword
    obtain ⟨⟨address, value⟩, hentry, heq⟩ := List.mem_map.mp hword
    obtain rfl := Record.text.inj heq
    have hwritten := Option.isSome_of_eq_some (Memory.mem_toList_iff.mp hentry)
    exact contains_head hspans hwritten (.inl hwritten)
  sites := by simp [content]
  addresses := by
    have hwords : (image.content.filterMap Record.word?).map TaggedWord.address =
        image.memory.toList.map Prod.fst := by
      simp [content, List.filterMap_map, Function.comp_def, Record.word?]
    rw [hwords]
    exact image.memory.nodup_toList
  names := by simp [content, List.filterMap_map, Function.comp_def, Record.exportName?]

/-- Execution of an image starts in its segment, unless it spans memory. -/
theorem allowsStart_head {image : LinkedImage} (hspans : ¬image.SpansMemory) :
    image.head.AllowsStart image.start := by
  by_cases hempty : ∀ address, image.memory.get? address = none
  · refine .inr ⟨length_eq_zero hempty, ?_⟩
    change image.start = image.first
    rw [first, Memory.first?_eq_none_iff.mpr hempty]
  · obtain ⟨address, hword⟩ := not_forall.mp hempty
    exact .inl (contains_head hspans (Option.isSome_iff_ne_none.mpr hword) (.inr rfl))

/-- The records of an image's file fit their lines and read back, if a header can hold its name. -/
theorem records_spec {image : LinkedImage} (hname : Record.IsSegmentName image.segmentName) :
    ∀ record ∈ image.records, Record.FitsLine record.toChars ∧ Loader.ReadsBack record ∧
      Record.ofChars record.toChars = .ok record := by
  have hself := Record.segmentName_eq_self hname.length
  have hheader : Record.FitsLine image.head.record.toChars :=
    Record.fitsLine_header (hself.symm ▸ hname.line)
  have hspec : ∀ record : Record, Record.FitsLine record.toChars →
      Record.ofChars record.toChars = .ok record →
      Record.FitsLine record.toChars ∧ Loader.ReadsBack record ∧
        Record.ofChars record.toChars = .ok record := by
    intro record hfits hread
    refine ⟨hfits, ⟨Record.trim_toChars hfits, fun parsed hparsed => ?_⟩, hread⟩
    rw [hread] at hparsed
    exact (Except.ok.inj hparsed).symm
  rw [records_eq]
  intro record hrecord
  simp only [List.cons_append, List.mem_cons, List.mem_append, content, List.mem_map,
    List.not_mem_nil, or_false] at hrecord
  rcases hrecord with rfl | ⟨entry, -, rfl⟩ | rfl
  · exact hspec _ hheader ((Record.ofChars_header_iff hname.length).mpr ⟨hname.ascii, rfl⟩)
  · exact hspec _ (Record.fitsLine_toChars trivial (by simp)) (Record.ofChars_text _)
  · exact hspec _ (Record.fitsLine_toChars trivial (by simp)) (Record.ofChars_finish _)

/-- The file of an image that spans memory is not loaded: its first word lies outside the segment
of length zero. -/
theorem not_spansMemory_of_load {image : LinkedImage} {module : ObjectModule}
    (hname : Record.IsSegmentName image.segmentName)
    (h : load image.objectText = .ok module) : ¬image.SpansMemory := by
  intro hspans
  obtain ⟨address, hword⟩ := hspans.1
  have hrecords := records_spec hname
  have hlength := (spansMemory_iff hword).mp hspans
  obtain ⟨loader, htakes, -⟩ := exists_takes_of_load
    (fun record hrecord => (hrecords record hrecord).1)
    (fun record hrecord => (hrecords record hrecord).2.1) h
  rw [records_eq, content] at htakes
  cases hlist : image.memory.toList with
  | nil =>
    obtain ⟨value, hvalue⟩ := Option.isSome_iff_exists.mp hword
    rw [← Memory.mem_toList_iff, hlist] at hvalue
    cases hvalue
  | cons entry rest =>
    rw [hlist] at htakes
    cases htakes with
    | cons hheader hrest =>
      cases hheader
      cases hrest with
      | cons htext hrest =>
        cases htext with
        | text word header hstart hsome hinside hnew =>
          obtain rfl := Option.some.inj hsome
          obtain ⟨hlow, hhigh⟩ := hinside
          change image.first.toNat ≤ _ at hlow
          change _ < image.first.toNat + image.length.toNat at hhigh
          omega

/-- The file of an image is loaded exactly when the image does not span memory. -/
theorem exists_load_iff {image : LinkedImage} (hname : Record.IsSegmentName image.segmentName) :
    (∃ module, load image.objectText = .ok module) ↔ ¬image.SpansMemory := by
  refine ⟨fun ⟨module, hmodule⟩ => not_spansMemory_of_load hname hmodule, fun hspans => ?_⟩
  have hrecords := records_spec hname
  rw [records_eq] at hrecords
  have hfile := exists_load_eq_ok_iff
    (fun record hrecord =>
      ⟨(hrecords record (List.mem_append_left _ hrecord)).1,
        (hrecords record (List.mem_append_left _ hrecord)).2.1⟩)
    image.head_fits (admits_content hspans) (allowsStart_head hspans)
  rw [objectText, records_eq]
  exact hfile.mpr fun record hrecord => (hrecords record (List.mem_append_left _ hrecord)).2.2

/-- Whether a module is what an image is written as: absolute, without imports, exports and tags,
and with the words and the start of the image. -/
structure WrittenAs (image : LinkedImage) (module : ObjectModule) : Prop where
  /-- The segment has the name of the image's. -/
  segmentName : module.segmentName = image.segmentName
  /-- The module does not move. -/
  relocatable : module.relocatable = false
  /-- Nothing is imported. -/
  imports : module.imports = []
  /-- Nothing is exported. -/
  exports : ∀ name, module.exports.get? name = none
  /-- No word moves in part. -/
  tags : ∀ address, module.tag? address = none
  /-- The words are those of the image. -/
  memory : module.memory = image.memory
  /-- Execution starts where the image says. -/
  start : module.start = image.start

/-- The words among an image's records are those of its memory, without tags. -/
theorem text_mem_records_iff {image : LinkedImage} {word : TaggedWord} :
    .text word ∈ image.records ↔
      image.memory.get? word.address = some word.value ∧ word.relocation = none := by
  obtain ⟨address, value, relocation⟩ := word
  simp only [records_eq, content, Header.record, List.cons_append, List.mem_cons, reduceCtorEq,
    List.mem_append, List.mem_map, Record.text.injEq, TaggedWord.mk.injEq, Prod.exists,
    Memory.mem_toList_iff, List.not_mem_nil, or_false, false_or]
  constructor
  · rintro ⟨_, _, hsome, rfl, rfl, rfl⟩
    exact ⟨hsome, rfl⟩
  · rintro ⟨hsome, rfl⟩
    exact ⟨address, value, hsome, rfl, rfl, rfl⟩

/-- A module loaded from the file of an image is what the image is written as. -/
theorem writtenAs_of_load {image : LinkedImage} {module : ObjectModule}
    (hname : Record.IsSegmentName image.segmentName)
    (h : load image.objectText = .ok module) : image.WrittenAs module := by
  have hrecords := records_spec hname
  obtain ⟨loader, hholds, hfinish⟩ := exists_holds_of_load
    (fun record hrecord => (hrecords record hrecord).1)
    (fun record hrecord => (hrecords record hrecord).2.1) h
  obtain ⟨-, header, start, hsome, hstart, rfl⟩ := Loader.finish_eq_ok hfinish
  have hown := (hholds.header _ _ _).mp (show image.head.record ∈ image.records from
    List.mem_cons_self)
  obtain rfl := Option.some.inj (hsome.symm.trans hown)
  have hend := (hholds.start image.start).mp (by simp [records_eq])
  obtain rfl := Option.some.inj (hstart.symm.trans hend)
  exact
    { segmentName := rfl
      relocatable := rfl
      imports := by
        rw [hholds.imports]
        simp [records_eq, content, Header.record, List.filterMap_map, List.filterMap_cons,
          Function.comp_def, Record.site?]
      exports := fun name => by
        rw [Option.eq_none_iff_forall_ne_some]
        intro symbol hsymbol
        obtain ⟨value, relocatable, hmem, -⟩ := (hholds.exports name symbol).mp hsymbol
        simp [records_eq, content, Header.record] at hmem
      tags := fun address => by
        rw [Option.eq_none_iff_forall_ne_some]
        intro tag htag
        obtain ⟨word, hmem, -, hword⟩ := (hholds.relocations address tag).mp htag
        rw [(text_mem_records_iff.mp hmem).2] at hword
        cases hword
      memory := Memory.ext_get? fun address => Option.ext fun value => by
        rw [hholds.memory]
        constructor
        · rintro ⟨word, hmem, rfl, rfl⟩
          exact (text_mem_records_iff.mp hmem).1
        · intro hvalue
          exact ⟨⟨address, value, none⟩, text_mem_records_iff.mpr ⟨hvalue, rfl⟩, rfl, rfl⟩
      start := rfl }

/-- Linking what an image is written as gives the image again. -/
theorem link_of_writtenAs {image : LinkedImage} {module : ObjectModule}
    (h : image.WrittenAs module) : link [module] none = .ok image := by
  have hplaced : module.placeFirst none = .ok module := rfl
  have hexternal : ∀ site ∈ module.imports, module.exports.get? site.name = none :=
    fun site _ => h.exports site.name
  rw [link_singleton hplaced, ofPlaced_nil hexternal, h.imports, h.memory, h.start, h.segmentName]

/-- A link of loaded modules gives an image whose name a header can hold. -/
theorem isSegmentName_of_link {modules : List ObjectModule} {base : Option Word}
    {image : LinkedImage} (hloaded : ∀ module ∈ modules, ∃ text, load text = .ok module)
    (h : link modules base = .ok image) : Record.IsSegmentName image.segmentName := by
  cases modules with
  | nil => cases h
  | cons first rest =>
    obtain ⟨placed, others, hplaced, -, hofPlaced⟩ := exists_ofPlaced_of_link h
    obtain ⟨-, -, -, -, -, -, hname⟩ := ofPlaced_eq_ok hofPlaced
    obtain ⟨text, htext⟩ := hloaded first List.mem_cons_self
    have hfirst := ObjectModule.placedFirst_of_placeFirst
      (fun hmoves => origin_eq_zero_of_load htext hmoves) hplaced
    have hkept : placed.segmentName = first.segmentName := by
      cases hfirst with
      | moved place _ _ _ hmoved => exact hmoved.segmentName
      | left => rfl
      | stays => rfl
    rw [hname, hkept]
    exact isSegmentName_of_load htext

end LinkedImage

/-- The file of a linked image is loaded unless the image spans memory. The module is then what the
image is written as, and linking it alone gives the image again. -/
theorem load_image_of_link {modules : List ObjectModule} {base : Option Word}
    {image : LinkedImage} (hloaded : ∀ module ∈ modules, ∃ text, load text = .ok module)
    (h : link modules base = .ok image) :
    (image.SpansMemory → ∀ module, load image.objectText ≠ .ok module) ∧
      (¬image.SpansMemory → ∃ module, load image.objectText = .ok module ∧
        image.WrittenAs module ∧ link [module] none = .ok image) := by
  have hname := LinkedImage.isSegmentName_of_link hloaded h
  constructor
  · intro hspans module hmodule
    exact LinkedImage.not_spansMemory_of_load hname hmodule hspans
  · intro hspans
    obtain ⟨module, hmodule⟩ := (LinkedImage.exists_load_iff hname).mpr hspans
    have hwritten := LinkedImage.writtenAs_of_load hname hmodule
    exact ⟨module, hmodule, hwritten, LinkedImage.link_of_writtenAs hwritten⟩

/-- The file of two modules linked on one page is loaded, and linking it gives the image again. -/
theorem load_image_calling :
    ∃ image, link [calling.module, called.module] (some 0x3000) = .ok image ∧
      ∃ module, load image.objectText = .ok module ∧ image.WrittenAs module ∧
        link [module] none = .ok image := by
  refine ⟨_, link_calling, (load_image_of_link
    (fun _ hmem => calling.loaded_of_mem_pair called hmem) link_calling).2 ?_⟩
  rintro ⟨-, hlow, -⟩
  revert hlow
  decide +kernel

/-- The lines of a program that reserves the highest address, where it starts. -/
def reservingLines : List String :=
  ["         .ORIG   xFFFF", "         .BLKW   #1", "         .END"]

/-- The program that reserves the highest address, and its module. -/
def reserving : Build "main" reservingLines :=
  .ofLines (by decide +kernel)

/-- The lines of a program that halts at the lowest address. -/
def lowestLines : List String :=
  ["         .ORIG   x0", "         TRAP    x25", "         .END"]

/-- The program that halts at the lowest address, and its module. -/
def lowest : Build "main" lowestLines :=
  .ofLines (by decide +kernel)

/-- The memory of the module that reserves and the one at the lowest address. -/
def spanningMemory :
    { memory // LinkedImage.combine [reserving.module, lowest.module] = .ok memory } :=
  okValue _ (by decide +kernel)

/-- The module that reserves and the one at the lowest address are linked: the one word is on one
page. -/
theorem link_reserving :
    link [reserving.module, lowest.module] none =
      .ok ⟨spanningMemory.1, reserving.module.start, reserving.module.segmentName⟩ := by
  have haddresses : spanningMemory.1.toList.map Prod.fst = [0] := by decide +kernel
  have hpage := LinkedImage.checkPage_eq_ok haddresses (by simp)
  have hplaced : reserving.module.placeFirst none = .ok reserving.module := rfl
  have hstays : lowest.module.relocatable = false := by decide +kernel
  rw [link_pair hplaced (ObjectModule.placeAfter_eq_self hstays _)]
  exact LinkedImage.ofPlaced_eq spanningMemory.2 hpage

/-- The word is at the lowest address and the start at the highest, so that the file of the image is
not loaded. -/
theorem load_image_reserving :
    ∃ image, (∃ text, load text = .ok reserving.module) ∧
      (∃ text, load text = .ok lowest.module) ∧
      link [reserving.module, lowest.module] none = .ok image ∧
      ∀ module, load image.objectText ≠ .ok module := by
  refine ⟨_, ⟨_, reserving.loaded⟩, ⟨_, lowest.loaded⟩, link_reserving, fun module hmodule => ?_⟩
  have hname := LinkedImage.isSegmentName_of_link
    (fun _ hmem => reserving.loaded_of_mem_pair lowest hmem) link_reserving
  refine LinkedImage.not_spansMemory_of_load hname hmodule ⟨⟨0, ?_⟩, ?_, ?_⟩ <;> decide +kernel

end PageMachine
