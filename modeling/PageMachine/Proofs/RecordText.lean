import PageMachine.Proofs.Text
import PageMachine.Record

/-!
# Records and their lines

A written record reads back as itself wherever it can be read at all. Words, imports and the end
always can; a header only if its name is ASCII, an export or import only if its name may name a
symbol. A written record is a single line that trimming leaves alone, unless a name brings a line
feed or a blank at its end with it.
-/

namespace PageMachine.Record

open Text

/-- A word is written in four characters. -/
theorem length_wordText (word : Word) : (wordText word).length = 4 :=
  length_hexDigits _ _

/-- A written word consists of plain characters. -/
theorem isPlain_of_mem_wordText {c : Char} {word : Word} (h : c ∈ wordText word) : isPlain c :=
  isPlain_of_mem_hexDigits h

/-- A plain character is an ASCII character. -/
theorem lt_of_isPlain {c : Char} (h : isPlain c) : c.toNat < 128 := by
  simp only [isPlain, Bool.and_eq_true, decide_eq_true_eq] at h
  exact h.1

/-- A plain character is no blank. -/
theorem isBlank_of_isPlain {c : Char} (h : isPlain c) : isBlank c = false := by
  simp only [isPlain, Bool.and_eq_true, Bool.not_eq_true'] at h
  exact h.2

/-- The digits of a number are ASCII characters. -/
theorem lt_of_mem_hexDigits {c : Char} {width n : Nat} (h : c ∈ hexDigits width n) :
    c.toNat < 128 :=
  lt_of_isPlain (isPlain_of_mem_hexDigits h)

/-- A written word consists of ASCII characters. -/
theorem lt_of_mem_wordText {c : Char} {word : Word} (h : c ∈ wordText word) : c.toNat < 128 :=
  lt_of_isPlain (isPlain_of_mem_wordText h)

/-- A number in its column is read back. -/
theorem number_append {front : List Char} (back : List Char) {first width n : Nat}
    {field : NumberField} (hfirst : front.length = first)
    (hfront : ∀ c ∈ front, c.toNat < 128) (hwidth : 16 ^ width ≤ 65536) (hn : n < 16 ^ width) :
    number (front ++ (hexDigits width n ++ back)) first (first + width) field = .ok n := by
  have hread : readDigits 16 0xFFFF 0 (hexDigits width n) = .ok n := by
    rw [readDigits_hexDigits (by rw [Nat.mod_eq_of_lt hn]; omega), Nat.mod_eq_of_lt hn]
    simp
  rw [number, byteSlice?_append _ _ back hfirst (by rw [length_hexDigits]) hfront
    fun _ => lt_of_mem_hexDigits]
  dsimp only
  rw [hread]

/-- A word in its columns is read back. -/
theorem wordAt_append {front : List Char} (back : List Char) {first : Nat} {field : NumberField}
    (word : Word) (hfirst : front.length = first) (hfront : ∀ c ∈ front, c.toNat < 128) :
    wordAt (front ++ (wordText word ++ back)) first field = .ok word := by
  rw [wordAt, wordText, number_append back hfirst hfront (by decide) word.isLt]
  simp [Except.map]

/-- The name behind the columns is read back if it may name a symbol. -/
theorem nameAt_append {front : List Char} (name : String) {first : Nat}
    (hfirst : front.length = first) (hfront : ∀ c ∈ front, c.toNat < 128) :
    nameAt (front ++ name.toList) first =
      if Symbol.isValidName name.toList then .ok name else .error (.invalidName name) := by
  subst hfirst
  simp [nameAt, dropBytes?_append name.toList hfront]

/-- The letters of a tag are plain. -/
theorem isPlain_of_mem_tag (relocation : Relocation) : ∀ c ∈ relocation.tag, isPlain c := by
  cases relocation <;> simp [Relocation.tag, isPlain, isBlank]

/-- A word's record reads back as itself. -/
theorem ofChars_text (word : TaggedWord) :
    ofChars (Record.text word).toChars = .ok (.text word) := by
  obtain ⟨address, value, relocation⟩ := word
  let tag := (relocation.map Relocation.tag).getD []
  have htag : ∀ c ∈ tag, c.toNat < 128 := by
    cases relocation with
    | none => simp [tag]
    | some relocation => exact fun c hc => lt_of_isPlain (isPlain_of_mem_tag relocation c hc)
  have hline : (Record.text ⟨address, value, relocation⟩).toChars =
      ['T'] ++ (wordText address ++ (wordText value ++ tag)) := by
    simp [toChars, tag]
  have hcolumns : ∀ c ∈ ['T'] ++ wordText address, c.toNat < 128 :=
    List.forall_mem_append.mpr ⟨by simp, fun _ => lt_of_mem_wordText⟩
  have haddress : wordAt (['T'] ++ (wordText address ++ (wordText value ++ tag))) 1
      .textAddress = .ok address :=
    wordAt_append _ address rfl (by simp)
  have hvalue : wordAt (['T'] ++ (wordText address ++ (wordText value ++ tag))) 5
      .textValue = .ok value := by
    rw [← List.append_assoc]
    exact wordAt_append _ value (by simp [length_wordText]) hcolumns
  have hall : ∀ c ∈ (['T'] ++ wordText address) ++ wordText value, c.toNat < 128 :=
    List.forall_mem_append.mpr ⟨hcolumns, fun _ => lt_of_mem_wordText⟩
  have hdrop : dropBytes? 9 (['T'] ++ (wordText address ++ (wordText value ++ tag))) =
      some tag := by
    rw [← List.append_assoc, ← List.append_assoc]
    simpa [length_wordText] using dropBytes?_append tag hall
  have hlength : byteLength (['T'] ++ (wordText address ++ (wordText value ++ tag))) =
      9 + tag.length := by
    rw [← List.append_assoc, ← List.append_assoc, byteLength_append, byteLength_of_ascii hall,
      byteLength_of_ascii htag]
    simp [length_wordText]
  rw [hline]
  change parseText _ = _
  have hfit : ¬(9 + tag.length ≠ 9 ∧ 9 + tag.length ≠ 11) := by
    cases relocation with
    | none => simp [tag]
    | some relocation => cases relocation <;> decide
  simp only [parseText, haddress, hvalue, hdrop, hlength, if_neg hfit, bind, Except.bind,
    pure, Except.pure]
  cases relocation with
  | none => rfl
  | some relocation => cases relocation <;> rfl

/-- An end record reads back as itself. -/
theorem ofChars_finish (start : Word) :
    ofChars (Record.finish start).toChars = .ok (.finish start) := by
  have hline : (Record.finish start).toChars = ['E'] ++ (wordText start ++ []) := by
    simp [toChars]
  have hascii : ∀ c ∈ ['E'] ++ (wordText start ++ []), c.toNat < 128 := by
    rw [List.append_nil]
    exact List.forall_mem_append.mpr ⟨by simp, fun _ => lt_of_mem_wordText⟩
  have hlength : byteLength (['E'] ++ (wordText start ++ [])) = 5 := by
    rw [byteLength_of_ascii hascii]
    simp [length_wordText]
  have hstart : wordAt (['E'] ++ (wordText start ++ [])) 1 .startAddress = .ok start :=
    wordAt_append _ start rfl (by simp)
  rw [hline]
  change parseFinish _ = _
  simp only [parseFinish, hstart, hlength, ne_eq, not_true_eq_false, ↓reduceIte, bind, Except.bind,
    pure, Except.pure]

/-- A name that may name a symbol is not empty. -/
theorem byteLength_pos_of_isValidName {name : List Char} (h : Symbol.isValidName name) :
    0 < byteLength name := by
  cases name with
  | nil => cases h
  | cons c rest => exact Nat.add_pos_left c.utf8Size_pos _

/-- An export can be read if its name may name a symbol, and then reads back as itself. -/
theorem ofChars_exported_iff {name : String} {value : Word} {relocatable : Bool}
    {parsed : Record} :
    ofChars (Record.exported name value relocatable).toChars = .ok parsed ↔
      Symbol.isValidName name.toList ∧ parsed = .exported name value relocatable := by
  let kind : Char := if relocatable then 'R' else 'A'
  have hkind : ∀ c ∈ ['X', kind], c.toNat < 128 := by
    cases relocatable <;> simp [kind]
  have hline : (Record.exported name value relocatable).toChars =
      ['X', kind] ++ (wordText value ++ name.toList) := by
    simp [toChars, kind]
  have hcolumns : ∀ c ∈ ['X', kind] ++ wordText value, c.toNat < 128 :=
    List.forall_mem_append.mpr ⟨hkind, fun _ => lt_of_mem_wordText⟩
  have hslice : byteSlice? 1 2 (['X', kind] ++ (wordText value ++ name.toList)) = some [kind] :=
    byteSlice?_append ['X'] [kind] _ rfl rfl (by simp)
      fun d hd => hkind d (List.mem_cons_of_mem _ hd)
  have hvalue : wordAt (['X', kind] ++ (wordText value ++ name.toList)) 2 .exportValue =
      .ok value :=
    wordAt_append _ value rfl hkind
  have hname : nameAt (['X', kind] ++ (wordText value ++ name.toList)) 6 =
      if Symbol.isValidName name.toList then .ok name else .error (.invalidName name) := by
    rw [← List.append_assoc]
    exact nameAt_append name (by simp [length_wordText]) hcolumns
  have hlength : byteLength (['X', kind] ++ (wordText value ++ name.toList)) =
      6 + byteLength name.toList := by
    rw [← List.append_assoc, byteLength_append, byteLength_of_ascii hcolumns]
    simp [length_wordText]
  rw [hline]
  change parseExport _ = _ ↔ _
  simp only [parseExport, hlength, hvalue, hname, hslice, bind, Except.bind, pure, Except.pure]
  by_cases hvalid : Symbol.isValidName name.toList
  · have hlong : ¬6 + byteLength name.toList < 7 := by
      have := byteLength_pos_of_isValidName hvalid
      omega
    rw [if_neg hlong]
    cases relocatable <;> simp [hvalid, kind, eq_comm]
  · split
    · simp [hvalid]
    · cases relocatable <;> simp [hvalid, kind]

/-- The digit of a number below sixteen is the one it is written with. -/
theorem hexDigits_one {n : Nat} (h : n < 16) : hexDigits 1 n = [hexDigit n] := by
  simp [hexDigits, Nat.mod_eq_of_lt h]

/-- An import can be read if its name may name a symbol, and then reads back as itself. -/
theorem ofChars_imported_iff {site : ImportSite} {parsed : Record} :
    ofChars (Record.imported site).toChars = .ok parsed ↔
      Symbol.isValidName site.name.toList ∧ parsed = .imported site := by
  obtain ⟨address, ⟨msb, lsb, hle, hlt⟩, name⟩ := site
  have hline : (Record.imported ⟨address, ⟨msb, lsb, hle, hlt⟩, name⟩).toChars =
      ['I'] ++ (wordText address ++ (hexDigits 1 msb ++ (hexDigits 1 lsb ++ name.toList))) := by
    simp [toChars, hexDigits_one hlt, hexDigits_one (Nat.lt_of_le_of_lt hle hlt)]
  rw [hline]
  generalize htext : ['I'] ++ (wordText address ++ (hexDigits 1 msb ++ (hexDigits 1 lsb ++
    name.toList))) = text
  have hplace : ∀ c ∈ ['I'] ++ wordText address, c.toNat < 128 :=
    List.forall_mem_append.mpr ⟨by simp, fun _ => lt_of_mem_wordText⟩
  have hhigh : ∀ c ∈ ['I'] ++ wordText address ++ hexDigits 1 msb, c.toNat < 128 :=
    List.forall_mem_append.mpr ⟨hplace, fun _ => lt_of_mem_hexDigits⟩
  have hlow : ∀ c ∈ ['I'] ++ wordText address ++ hexDigits 1 msb ++ hexDigits 1 lsb,
      c.toNat < 128 :=
    List.forall_mem_append.mpr ⟨hhigh, fun _ => lt_of_mem_hexDigits⟩
  have haddress : wordAt text 1 .importAddress = .ok address := by
    rw [← htext]
    exact wordAt_append _ address rfl (by simp)
  have hmsb : number text 5 6 .importMsb = .ok msb := by
    rw [← htext, ← List.append_assoc]
    exact number_append _ (by simp [length_wordText]) hplace (by decide) (by simpa using hlt)
  have hlsb : number text 6 7 .importLsb = .ok lsb := by
    rw [← htext, ← List.append_assoc, ← List.append_assoc]
    exact number_append _ (by simp [length_wordText, length_hexDigits]) hhigh (by decide)
      (by omega)
  have hname : nameAt text 7 =
      if Symbol.isValidName name.toList then .ok name else .error (.invalidName name) := by
    rw [← htext, ← List.append_assoc, ← List.append_assoc, ← List.append_assoc]
    exact nameAt_append name (by simp [length_wordText, length_hexDigits]) hlow
  have hhead : ofChars text = parseImport text := by
    rw [← htext]
    rfl
  have hfield : BitRange.ofBounds? msb lsb = some ⟨msb, lsb, hle, hlt⟩ := by
    simp [BitRange.ofBounds?, hle, hlt]
  have hlength : byteLength text = 7 + byteLength name.toList := by
    rw [← htext, ← List.append_assoc, ← List.append_assoc, ← List.append_assoc, byteLength_append,
      byteLength_of_ascii hlow]
    simp [length_wordText, length_hexDigits]
  rw [hhead]
  simp only [parseImport, hlength, haddress, hmsb, hlsb, hname, hfield, bind, Except.bind, pure,
    Except.pure]
  by_cases hvalid : Symbol.isValidName name.toList
  · have hlong : ¬7 + byteLength name.toList < 8 := by
      have := byteLength_pos_of_isValidName hvalid
      omega
    simp [hlong, hvalid, eq_comm]
  · split
    · simp [hvalid]
    · simp [hvalid]

/-- A segment name has its full length. -/
theorem length_segmentName (name : List Char) : (segmentName name).length = nameLength := by
  simp only [segmentName, padRight, List.length_append, List.length_replicate, List.length_take]
  omega

/-- A name that has the full length is its own segment name. -/
theorem segmentName_eq_self {name : List Char} (h : name.length = nameLength) :
    segmentName name = name := by
  rw [segmentName, padRight, List.take_of_length_le (by omega), h]
  simp

/-- The origin of a header as it is written. -/
def originText (origin : Option Word) : List Char :=
  (origin.map wordText).getD relocatableOrigin

/-- An origin is written in four characters. -/
theorem length_originText (origin : Option Word) : (originText origin).length = 4 := by
  cases origin with
  | none => rfl
  | some origin => exact length_wordText origin

/-- No word is written like the origin of a relocatable segment. -/
theorem wordText_ne_relocatableOrigin (word : Word) : wordText word ≠ relocatableOrigin := by
  intro h
  have hdigit : ∀ m : Fin 16, 'M' ≠ hexDigit m := by decide
  have hmem : 'M' ∈ wordText word := by simp [h, relocatableOrigin]
  obtain ⟨m, hm⟩ := exists_of_mem_hexDigits hmem
  exact hdigit m hm

/-- The origin of a header is written in plain characters. -/
theorem isPlain_of_mem_originText {c : Char} {origin : Option Word} (h : c ∈ originText origin) :
    isPlain c := by
  cases origin with
  | none =>
    have hplain : ∀ d ∈ relocatableOrigin, isPlain d := List.all_eq_true.mp (by decide)
    exact hplain c h
  | some origin => exact isPlain_of_mem_wordText h

/-- An origin in its columns is read back. -/
theorem origin_append {front : List Char} (back : List Char) (origin : Option Word)
    (hfirst : front.length = 7) (hfront : ∀ c ∈ front, c.toNat < 128) :
    (if ((front ++ (originText origin ++ back)).drop 7).take 4 = relocatableOrigin then .ok none
      else (wordAt (front ++ (originText origin ++ back)) 7 .segmentOrigin).map some) =
      Except.ok origin := by
  have hcolumns : ((front ++ (originText origin ++ back)).drop 7).take 4 = originText origin := by
    rw [List.drop_left' hfirst, List.take_left' (length_originText origin)]
  rw [hcolumns]
  cases origin with
  | none => rfl
  | some place =>
    have hmark : originText (some place) ≠ relocatableOrigin := wordText_ne_relocatableOrigin place
    rw [if_neg hmark, originText, Option.map_some, Option.getD_some,
      wordAt_append back place hfirst hfront]
    rfl

/-- A header is read by its columns if its name has the full length and is ASCII. -/
theorem parseHeader_columns {name : String} {origin : Option Word} {length : Word}
    (hname : name.toList.length = nameLength) (hascii : ∀ c ∈ name.toList, c.toNat < 128) :
    parseHeader (['H'] ++ name.toList ++ (originText origin ++ wordText length)) =
      .ok (.header name origin length) := by
  have hseven : (['H'] ++ name.toList).length = 7 := by simp [hname, nameLength]
  have htitle : ∀ c ∈ ['H'] ++ name.toList, c.toNat < 128 :=
    List.forall_mem_append.mpr ⟨by simp, hascii⟩
  have hplace : ∀ c ∈ originText origin, c.toNat < 128 := fun _ hc =>
    lt_of_isPlain (isPlain_of_mem_originText hc)
  have horigin := origin_append (wordText length) origin hseven htitle
  have hlength : wordAt (['H'] ++ name.toList ++ (originText origin ++ wordText length)) 11
      .segmentLength = .ok length := by
    rw [← List.append_assoc, ← List.append_nil (wordText length)]
    refine wordAt_append [] length ?_ (List.forall_mem_append.mpr ⟨htitle, hplace⟩)
    rw [List.length_append, hseven, length_originText]
  have hkept : ((['H'] ++ name.toList ++ (originText origin ++ wordText length)).drop 1).take 6 =
      name.toList :=
    List.take_left' hname
  have hfit : ¬((['H'] ++ name.toList ++ (originText origin ++ wordText length)).length ≠ 15 ∨
      ¬(['H'] ++ name.toList ++ (originText origin ++ wordText length)).all (·.toNat < 128)) := by
    rw [List.length_append, hseven, List.length_append, length_originText, length_wordText]
    simp only [List.all_eq_true, decide_eq_true_eq, ne_eq, not_true_eq_false, false_or, not_not]
    exact List.forall_mem_append.mpr
      ⟨htitle, List.forall_mem_append.mpr ⟨hplace, fun _ => lt_of_mem_wordText⟩⟩
  rw [parseHeader, if_neg hfit, hkept]
  simp only [pure, Except.pure, hlength, bind, Except.bind, String.ofList_toList]
  split at horigin
  · rename_i hmark
    rw [if_pos hmark, Except.ok.inj horigin]
  · rename_i hmark
    rw [if_neg hmark, horigin]

/-- A header whose name has the full length can be read if the name is ASCII, and then reads back
as itself. -/
theorem ofChars_header_iff {name : String} {origin : Option Word} {length : Word}
    {parsed : Record} (hname : name.toList.length = nameLength) :
    ofChars (Record.header name origin length).toChars = .ok parsed ↔
      (∀ c ∈ name.toList, c.toNat < 128) ∧ parsed = .header name origin length := by
  have hline : (Record.header name origin length).toChars =
      ['H'] ++ name.toList ++ (originText origin ++ wordText length) := by
    simp [toChars, originText, segmentName_eq_self hname]
  rw [hline]
  change parseHeader _ = _ ↔ _
  by_cases hascii : ∀ c ∈ name.toList, c.toNat < 128
  · rw [parseHeader_columns hname hascii, Except.ok.injEq, eq_comm (a := parsed)]
    exact (and_iff_right hascii).symm
  · have hunfit : ¬(['H'] ++ name.toList ++ (originText origin ++ wordText length)).all
        (·.toNat < 128) := by
      intro hall
      simp only [List.all_eq_true, decide_eq_true_eq] at hall
      exact hascii fun c hc => hall c (by simp [hc])
    rw [parseHeader, if_pos (.inr hunfit)]
    simp [hascii, bind, Except.bind]

/-- Whether a name can stand at the end of a line: it brings no line feed and no blank at its
end. -/
def FitsLine (name : List Char) : Prop :=
  '\n' ∉ name ∧ trimEnd name = name

/-- Plain characters are left alone by trimming. -/
theorem trimEnd_of_isPlain {text : List Char} (h : ∀ c ∈ text, isPlain c) :
    trimEnd text = text := by
  induction text with
  | nil => rfl
  | cons c rest ih =>
    have hrest := ih fun d hd => h d (List.mem_cons_of_mem _ hd)
    have hc := isBlank_of_isPlain (h c List.mem_cons_self)
    cases rest with
    | nil => simp [trimEnd, hc]
    | cons d rest => rw [trimEnd, hrest]

/-- Plain characters with a fitting name behind them fit a line. -/
theorem fitsLine_append {front name : List Char} (hfront : ∀ c ∈ front, isPlain c)
    (hname : FitsLine name) : FitsLine (front ++ name) := by
  constructor
  · intro h
    rcases List.mem_append.mp h with h | h
    · exact absurd (hfront _ h) (by decide)
    · exact hname.1 h
  · cases name with
    | nil => simpa using trimEnd_of_isPlain hfront
    | cons c rest => exact trimEnd_append_eq_self hname.2 (by simp)

/-- The empty name fits a line. -/
theorem fitsLine_nil : FitsLine [] :=
  ⟨by simp, rfl⟩

/-- Whether a record's name fits a line, where the record has a symbol's name. -/
def NameFits : Record → Prop
  | .exported name _ _ => FitsLine name.toList
  | .imported site => FitsLine site.name.toList
  | .header _ _ _ | .text _ | .finish _ => True

/-- A record other than a header fits a line if its name does. -/
theorem fitsLine_toChars {record : Record} (hname : record.NameFits)
    (hheader : ∀ name origin length, record ≠ .header name origin length) :
    FitsLine record.toChars := by
  have hword : ∀ word : Word, ∀ c ∈ wordText word, isPlain c := fun _ _ =>
    isPlain_of_mem_wordText
  cases record with
  | header name origin length => exact absurd rfl (hheader name origin length)
  | text word =>
    obtain ⟨address, value, relocation⟩ := word
    rw [← List.append_nil (toChars _)]
    apply fitsLine_append _ fitsLine_nil
    intro c hc
    simp only [toChars, List.cons_append, List.mem_cons, List.mem_append] at hc
    rcases hc with rfl | (hc | hc) | hc
    · decide
    · exact hword address c hc
    · exact hword value c hc
    · cases relocation with
      | none => simp at hc
      | some tag => exact isPlain_of_mem_tag tag c hc
  | exported name value relocatable =>
    change FitsLine ('X' :: (if relocatable then 'R' else 'A') :: wordText value ++ name.toList)
    apply fitsLine_append _ hname
    intro c hc
    simp only [List.mem_cons] at hc
    rcases hc with rfl | rfl | hc
    · decide
    · cases relocatable <;> decide
    · exact hword value c hc
  | imported site =>
    obtain ⟨address, ⟨msb, lsb, hle, hlt⟩, name⟩ := site
    have hdigit : ∀ m : Fin 16, isPlain (hexDigit m) := by decide
    have hline : (Record.imported ⟨address, ⟨msb, lsb, hle, hlt⟩, name⟩).toChars =
        ('I' :: wordText address ++ [hexDigit msb, hexDigit lsb]) ++ name.toList := by
      simp [toChars]
    rw [hline]
    apply fitsLine_append _ hname
    intro c hc
    simp only [List.cons_append, List.mem_cons, List.mem_append, List.not_mem_nil, or_false] at hc
    rcases hc with rfl | hc | rfl | rfl
    · decide
    · exact hword address c hc
    · exact hdigit ⟨msb, hlt⟩
    · exact hdigit ⟨lsb, Nat.lt_of_le_of_lt hle hlt⟩
  | finish start =>
    rw [← List.append_nil (toChars _)]
    apply fitsLine_append _ fitsLine_nil
    intro c hc
    rcases List.mem_cons.mp hc with rfl | hc
    · decide
    · exact hword start c hc

/-- A header fits a line if its name holds no line feed; a blank at the end of the name is not at
the end of the line. -/
theorem fitsLine_header {name : String} {origin : Option Word} {length : Word}
    (hname : '\n' ∉ segmentName name.toList) :
    FitsLine (Record.header name origin length).toChars := by
  have hplain : ∀ c ∈ wordText length, isPlain c := fun _ => isPlain_of_mem_wordText
  constructor
  · intro h
    simp only [toChars, List.cons_append, List.mem_cons, List.mem_append] at h
    rcases h with h | (h | h) | h
    · exact absurd h (by decide)
    · exact hname h
    · cases origin with
      | none => exact absurd h (by decide)
      | some origin =>
        have hnewline : isPlain '\n' := isPlain_of_mem_wordText h
        exact absurd hnewline (by decide)
    · exact absurd (hplain _ h) (by decide)
  · apply trimEnd_append_eq_self (trimEnd_of_isPlain hplain)
    exact List.ne_nil_of_length_eq_add_one (length_wordText length)

/-- The first character of a record's line is plain. -/
theorem exists_toChars_eq_cons (record : Record) :
    ∃ c rest, record.toChars = c :: rest ∧ isPlain c := by
  cases record <;> exact ⟨_, _, rfl, by decide⟩

/-- A line that fits is left alone by trimming. -/
theorem trim_toChars {record : Record} (h : FitsLine record.toChars) :
    trim record.toChars = record.toChars := by
  obtain ⟨c, rest, hline, hc⟩ := exists_toChars_eq_cons record
  rw [hline] at h ⊢
  rw [trim_cons (isBlank_of_isPlain hc), h.2]

/-- A line that fits does not end in a carriage return. -/
theorem dropReturn_of_fitsLine {line : List Char} (h : FitsLine line) : dropReturn line = line := by
  apply dropReturn_eq_self
  intro hlast
  obtain ⟨front, rfl⟩ := List.getLast?_eq_some_iff.mp hlast
  have hblank : trimEnd (front ++ ['\r']) = trimEnd front :=
    trimEnd_append_blank front ['\r'] (by simp [isBlank])
  have hlength := (trimEnd_prefix_self front).length_le
  rw [← hblank, h.2] at hlength
  simp at hlength

end PageMachine.Record
