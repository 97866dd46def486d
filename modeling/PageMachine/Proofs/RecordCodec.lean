import Mathlib.Data.List.Induction
import PageMachine.Proofs.RecordText
import PageMachine.Proofs.Result

/-!
# Lines read as records

A line that can be read as a record is the line that the record is written as, but for the letters
among its digits, which may be small. So the records that are read back from their own lines are
those that some line spells: a header whose name fills its columns in ASCII, an export or import
whose name may name a symbol, and every other record. Where a name is too short or too long for a
header, its line reads as a header with another name; where it holds what no line can, the line is
refused.

The columns are counted in characters. They are counted in bytes when a line is read, but in front
of a name that makes no difference, since a line with anything but ASCII there is refused.
-/

namespace PageMachine

namespace Text

/-- What is cut off is a beginning of the text. -/
theorem exists_of_takeBytes? {n : Nat} {text front : List Char}
    (h : takeBytes? n text = some front) : ∃ rest, text = front ++ rest ∧ byteLength front = n := by
  fun_induction takeBytes? n text generalizing front with
  | case1 text =>
    obtain rfl := Option.some.inj h
    exact ⟨text, rfl, rfl⟩
  | case2 => cases h
  | case3 n c text hfits ih =>
    obtain ⟨taken, htaken, rfl⟩ := Option.map_eq_some_iff.mp h
    obtain ⟨rest, rfl, hlength⟩ := ih htaken
    exact ⟨rest, rfl, by rw [byteLength]; omega⟩
  | case4 => cases h

/-- A column that is found behind an ASCII text stands there. -/
theorem exists_of_byteSlice? {front rest column : List Char} {first last : Nat}
    (hfirst : front.length = first) (hfront : ∀ c ∈ front, c.toNat < 128)
    (h : byteSlice? first last (front ++ rest) = some column) :
    ∃ back, rest = column ++ back ∧ byteLength column = last - first := by
  subst hfirst
  rw [byteSlice?, dropBytes?_append rest hfront, Option.bind_some] at h
  exact exists_of_takeBytes? h

/-- A digit in either case is written as the letter in upper case. -/
theorem hexDigit_of_digitValue? {c : Char} {n : Nat} (h : digitValue? 16 c = some n) :
    n < 16 ∧ c.toNat < 128 ∧ hexDigit n = c.toUpper := by
  have hsmall : ∀ m : Fin 103, ∀ n ∈ digitValue? 16 (Char.ofNat m),
      n < 16 ∧ hexDigit n = (Char.ofNat m).toUpper := by
    decide
  have hc : c.toNat < 103 := by
    simp only [digitValue?, Option.filter_eq_some_iff] at h
    split at h
    · omega
    · split at h
      · omega
      · split at h
        · omega
        · simp at h
  have hdigit := hsmall ⟨c.toNat, hc⟩ n
  rw [Char.ofNat_toNat] at hdigit
  exact ⟨(hdigit h).1, by omega, (hdigit h).2⟩

/-- Digits that read as a number are the last digits of the number, but for the case of letters. -/
theorem hexDigits_of_readDigits {largest value n : Nat} {digits : List Char}
    (h : readDigits 16 largest value digits = .ok n) :
    (∀ c ∈ digits, c.toNat < 128) ∧ hexDigits digits.length n = digits.map Char.toUpper := by
  induction digits using List.reverseRecOn generalizing n with
  | nil => simp [hexDigits]
  | append_singleton front c ih =>
    rw [readDigits_append] at h
    cases hfront : readDigits 16 largest value front with
    | error fault =>
      rw [hfront] at h
      cases h
    | ok high =>
      rw [hfront] at h
      obtain ⟨hascii, hdigits⟩ := ih hfront
      change readDigits 16 largest high [c] = .ok n at h
      rw [readDigits] at h
      cases hdigit : digitValue? 16 c with
      | none =>
        rw [hdigit] at h
        cases h
      | some low =>
        obtain ⟨hlow, hc, hupper⟩ := hexDigit_of_digitValue? hdigit
        rw [hdigit] at h
        dsimp only at h
        split at h
        · cases h
        · obtain rfl : high * 16 + low = n := Except.ok.inj h
          constructor
          · simpa [or_imp, forall_and] using ⟨hascii, hc⟩
          · rw [List.length_append, List.length_singleton, hexDigits,
              show (high * 16 + low) / 16 = high by omega,
              show (high * 16 + low) % 16 = low by omega, hdigits, hupper, List.map_append]
            rfl

/-- A number that is read does not exceed the largest. -/
theorem le_of_readDigits {base largest value n : Nat} {digits : List Char}
    (hvalue : value ≤ largest) (h : readDigits base largest value digits = .ok n) :
    n ≤ largest := by
  induction digits generalizing value with
  | nil =>
    obtain rfl := Except.ok.inj h
    exact hvalue
  | cons c rest ih =>
    rw [readDigits] at h
    split at h
    · cases h
    · dsimp only at h
      split at h
      · cases h
      · next hfits => exact ih (Nat.le_of_not_lt hfits) h

end Text

namespace Record

open Text

/-- The columns of a record's line in which the digits of its numbers stand: the first of them, and
the first behind them. -/
def digitColumns : Record → Nat × Nat
  | .header _ origin _ => (if origin.isSome then 7 else 11, 15)
  | .text _ => (1, 9)
  | .exported _ _ _ => (2, 6)
  | .imported _ => (1, 7)
  | .finish _ => (1, 5)

/-- A line with the letters among the digits of a record in upper case. -/
def upperDigits (record : Record) (line : List Char) : List Char :=
  line.mapIdx fun place c =>
    if record.digitColumns.1 ≤ place ∧ place < record.digitColumns.2 then c.toUpper else c

/-- Whether some line spells a record. -/
def HasLine : Record → Prop
  | .header name _ _ => name.toList.length = nameLength ∧ ∀ c ∈ name.toList, c.toNat < 128
  | .text _ | .finish _ => True
  | .exported name _ _ => Symbol.isValidName name.toList
  | .imported site => Symbol.isValidName site.name.toList

/-- Whether a record has a name that is refused in its line. -/
def Refused : Record → Prop
  | .header name _ _ => ∃ c ∈ name.toList.take nameLength, 128 ≤ c.toNat
  | .text _ | .finish _ => False
  | .exported name _ _ => ¬Symbol.isValidName name.toList
  | .imported site => ¬Symbol.isValidName site.name.toList

section Columns

variable {front rest : List Char} {first : Nat} {field : NumberField}

/-- A number that is read stands in its column. -/
theorem exists_digits_of_number {last n : Nat} (hfirst : front.length = first)
    (hfront : ∀ c ∈ front, c.toNat < 128) (h : number (front ++ rest) first last field = .ok n) :
    ∃ digits back, rest = digits ++ back ∧ digits.length = last - first ∧
      (∀ c ∈ digits, c.toNat < 128) ∧ hexDigits (last - first) n = digits.map Char.toUpper ∧
      n < 65536 := by
  rw [number] at h
  split at h
  · cases h
  · next digits hslice =>
    obtain ⟨back, rfl, hlength⟩ := exists_of_byteSlice? hfirst hfront hslice
    split at h
    · next value hread =>
      obtain rfl := Except.ok.inj h
      obtain ⟨hascii, hdigits⟩ := hexDigits_of_readDigits hread
      have hsmall := le_of_readDigits (by decide) hread
      rw [byteLength_of_ascii hascii] at hlength
      exact ⟨digits, back, rfl, hlength, hascii, hlength ▸ hdigits, Nat.lt_succ_of_le hsmall⟩
    · cases h

/-- A word that is read stands in its columns. -/
theorem exists_digits_of_wordAt {word : Word} (hfirst : front.length = first)
    (hfront : ∀ c ∈ front, c.toNat < 128) (h : wordAt (front ++ rest) first field = .ok word) :
    ∃ digits back, rest = digits ++ back ∧ digits.length = 4 ∧
      (∀ c ∈ digits, c.toNat < 128) ∧ wordText word = digits.map Char.toUpper := by
  rw [wordAt] at h
  cases hnumber : number (front ++ rest) first (first + 4) field with
  | error error =>
    rw [hnumber] at h
    cases h
  | ok n =>
    rw [hnumber] at h
    obtain rfl := Except.ok.inj h
    obtain ⟨digits, back, hrest, hlength, hascii, hdigits, hsmall⟩ :=
      exists_digits_of_number hfirst hfront hnumber
    rw [Nat.add_sub_cancel_left] at hlength hdigits
    refine ⟨digits, back, hrest, hlength, hascii, ?_⟩
    rw [wordText, BitVec.toNat_ofNat, Nat.mod_eq_of_lt hsmall, hdigits]

/-- A word that is read from four columns stands in them. -/
theorem wordText_of_wordAt {word : Word} {column back : List Char} (hfirst : front.length = first)
    (hfront : ∀ c ∈ front, c.toNat < 128) (hcolumn : column.length = 4)
    (h : wordAt (front ++ (column ++ back)) first field = .ok word) :
    wordText word = column.map Char.toUpper := by
  obtain ⟨digits, rest, hrest, hlength, -, htext⟩ := exists_digits_of_wordAt hfirst hfront h
  rw [htext, (List.append_inj hrest (hcolumn.trans hlength.symm)).1]

/-- A name that is read is the rest of the line and may name a symbol. -/
theorem eq_of_nameAt {name : String} (hfirst : front.length = first)
    (hfront : ∀ c ∈ front, c.toNat < 128) (h : nameAt (front ++ rest) first = .ok name) :
    rest = name.toList ∧ Symbol.isValidName name.toList := by
  subst hfirst
  rw [nameAt, dropBytes?_append rest hfront] at h
  dsimp only at h
  split at h
  · next hvalid =>
    obtain rfl := Except.ok.inj h
    rw [String.toList_ofList]
    exact ⟨rfl, hvalid⟩
  · cases h

end Columns

/-- What stands around the digits is left alone. -/
theorem upperDigits_append {record : Record} (front digits back : List Char)
    (h : record.digitColumns = (front.length, front.length + digits.length)) :
    record.upperDigits (front ++ (digits ++ back)) =
      front ++ (digits.map Char.toUpper ++ back) := by
  apply List.ext_getElem?
  intro place
  rw [upperDigits, h, List.getElem?_mapIdx]
  simp only [List.getElem?_append, List.length_map, List.getElem?_map]
  by_cases hfront : place < front.length
  · have hout : ¬(front.length ≤ place ∧ place < front.length + digits.length) := by omega
    simp only [if_pos hfront, if_neg hout, Option.map_id']
  · simp only [if_neg hfront]
    by_cases hdigits : place - front.length < digits.length
    · have hin : front.length ≤ place ∧ place < front.length + digits.length := by omega
      simp only [if_pos hdigits, if_pos hin]
    · have hout : ¬(front.length ≤ place ∧ place < front.length + digits.length) := by omega
      simp only [if_neg hdigits, if_neg hout, Option.map_id']

/-- Whether a line is that of a record but for small letters among the digits. -/
structure Spells (line : List Char) (record : Record) : Prop where
  upper : record.toChars = record.upperDigits line
  hasLine : record.HasLine

/-- In front of the digits a line is that of the record it spells. -/
theorem Spells.take_eq {line : List Char} {record : Record} (h : Spells line record) :
    line.take record.digitColumns.1 = record.toChars.take record.digitColumns.1 := by
  apply List.ext_getElem?
  intro place
  rw [h.upper, upperDigits, List.getElem?_take, List.getElem?_take]
  split
  · next hfront =>
    have hout : ¬(record.digitColumns.1 ≤ place ∧ place < record.digitColumns.2) := by omega
    rw [List.getElem?_mapIdx]
    simp only [if_neg hout, Option.map_id']
  · rfl

/-- A line that is read as a word spells it. -/
theorem spells_of_parseText {rest : List Char} {record : Record}
    (h : parseText ('T' :: rest) = .ok record) : Spells ('T' :: rest) record := by
  dsimp only [parseText] at h
  obtain ⟨-, h⟩ := eq_ok_of_guard h
  obtain ⟨address, haddress, h⟩ := exists_of_bind_eq_ok h
  obtain ⟨value, hvalue, h⟩ := exists_of_bind_eq_ok h
  rw [← List.singleton_append] at haddress hvalue h ⊢
  obtain ⟨places, back, rfl, hplaces, hplace, hplaceText⟩ :=
    exists_digits_of_wordAt rfl (by simp) haddress
  rw [← List.append_assoc] at hvalue h
  have hcolumns : ∀ c ∈ ['T'] ++ places, c.toNat < 128 := by simpa using hplace
  obtain ⟨digits, tag, rfl, hdigits, hdigit, hdigitText⟩ :=
    exists_digits_of_wordAt (by simp [hplaces]) hcolumns hvalue
  rw [← List.append_assoc] at h
  have hfront : ∀ c ∈ ['T'] ++ places ++ digits, c.toNat < 128 := by
    simpa [or_imp, forall_and] using ⟨hplace, hdigit⟩
  have hdrop := dropBytes?_append tag hfront
  rw [show (['T'] ++ places ++ digits).length = 9 by simp [hplaces, hdigits]] at hdrop
  rw [hdrop] at h
  obtain ⟨relocation, rfl, rfl⟩ : ∃ relocation, record = .text ⟨address, value, relocation⟩ ∧
      (relocation.map Relocation.tag).getD [] = tag := by
    split at h
    · exact ⟨none, (Except.ok.inj h).symm, by simp_all⟩
    · exact ⟨some .pageOffset, (Except.ok.inj h).symm, by simp_all [Relocation.tag]⟩
    · exact ⟨some .wholeWord, (Except.ok.inj h).symm, by simp_all [Relocation.tag]⟩
    · cases h
  refine ⟨?_, trivial⟩
  rw [← List.append_assoc places, upperDigits_append ['T'] (places ++ digits) _
    (by simp [digitColumns, hplaces, hdigits])]
  simp [toChars, hplaceText, hdigitText]

/-- A line that is read as an export spells it. -/
theorem spells_of_parseExport {rest : List Char} {record : Record}
    (h : parseExport ('X' :: rest) = .ok record) : Spells ('X' :: rest) record := by
  dsimp only [parseExport] at h
  obtain ⟨-, h⟩ := eq_ok_of_guard h
  obtain ⟨relocatable, hkind, h⟩ : ∃ relocatable,
      byteSlice? 1 2 ('X' :: rest) = some [if relocatable then 'R' else 'A'] ∧
        (do
          let value ← wordAt ('X' :: rest) 2 .exportValue
          let name ← nameAt ('X' :: rest) 6
          return Record.exported name value relocatable) = .ok record := by
    split at h
    · next hkind => exact ⟨false, hkind, h⟩
    · next hkind => exact ⟨true, hkind, h⟩
    · cases h
  obtain ⟨value, hvalue, h⟩ := exists_of_bind_eq_ok h
  obtain ⟨name, hname, h⟩ := exists_of_bind_eq_ok h
  obtain rfl := Except.ok.inj h
  generalize hletter : (if relocatable then 'R' else 'A') = kind at hkind
  have hascii : ∀ c ∈ ['X', kind], c.toNat < 128 := by
    cases relocatable <;> simp [← hletter]
  rw [← List.singleton_append] at hkind hvalue hname ⊢
  have hfirst : ['X'].length = 1 := rfl
  obtain ⟨behind, rfl, -⟩ := exists_of_byteSlice? hfirst (by simp) hkind
  rw [← List.append_assoc] at hvalue hname ⊢
  obtain ⟨digits, back, rfl, hdigits, hdigit, hdigitText⟩ :=
    exists_digits_of_wordAt rfl hascii hvalue
  rw [← List.append_assoc] at hname
  have hcolumns : ∀ c ∈ ['X'] ++ [kind] ++ digits, c.toNat < 128 := by
    simpa [or_imp, forall_and] using ⟨hascii kind (by simp), hdigit⟩
  obtain ⟨rfl, hvalid⟩ := eq_of_nameAt (by simp [hdigits]) hcolumns hname
  refine ⟨?_, hvalid⟩
  rw [upperDigits_append _ digits _ (by simp [digitColumns, hdigits])]
  simp [toChars, hdigitText, hletter]

/-- A line that is read as an import spells it. -/
theorem spells_of_parseImport {rest : List Char} {record : Record}
    (h : parseImport ('I' :: rest) = .ok record) : Spells ('I' :: rest) record := by
  dsimp only [parseImport] at h
  obtain ⟨-, h⟩ := eq_ok_of_guard h
  obtain ⟨address, haddress, h⟩ := exists_of_bind_eq_ok h
  obtain ⟨msb, hmsb, h⟩ := exists_of_bind_eq_ok h
  obtain ⟨lsb, hlsb, h⟩ := exists_of_bind_eq_ok h
  split at h
  · cases h
  next field hfield =>
  obtain ⟨name, hname, h⟩ := exists_of_bind_eq_ok h
  obtain rfl := Except.ok.inj h
  obtain ⟨hbounds, rfl, rfl⟩ : (lsb ≤ msb ∧ msb < 16) ∧ field.msb = msb ∧ field.lsb = lsb := by
    rw [BitRange.ofBounds?] at hfield
    split at hfield
    · next hbounds =>
      obtain rfl := Option.some.inj hfield
      exact ⟨hbounds, rfl, rfl⟩
    · cases hfield
  rw [← List.singleton_append] at haddress hmsb hlsb hname ⊢
  obtain ⟨places, back, rfl, hplaces, hplace, hplaceText⟩ :=
    exists_digits_of_wordAt rfl (by simp) haddress
  rw [← List.append_assoc] at hmsb hlsb hname
  have hfront : ∀ c ∈ ['I'] ++ places, c.toNat < 128 := by simpa using hplace
  have hfifth : (['I'] ++ places).length = 5 := by simp [hplaces]
  obtain ⟨high, back, rfl, hhigh, hhighDigit, hhighText, -⟩ :=
    exists_digits_of_number hfifth hfront hmsb
  rw [← List.append_assoc] at hlsb hname
  have hwider : ∀ c ∈ ['I'] ++ places ++ high, c.toNat < 128 := by
    simpa [or_imp, forall_and] using ⟨hplace, hhighDigit⟩
  have hsixth : (['I'] ++ places ++ high).length = 6 := by simp [hplaces, hhigh]
  obtain ⟨low, back, rfl, hlow, hlowDigit, hlowText, -⟩ :=
    exists_digits_of_number hsixth hwider hlsb
  rw [← List.append_assoc] at hname
  have hcolumns : ∀ c ∈ ['I'] ++ places ++ high ++ low, c.toNat < 128 := by
    simpa [or_imp, forall_and] using ⟨hplace, hhighDigit, hlowDigit⟩
  obtain ⟨rfl, hvalid⟩ := eq_of_nameAt (by simp [hplaces, hhigh, hlow]) hcolumns hname
  change hexDigits 1 field.msb = _ at hhighText
  change hexDigits 1 field.lsb = _ at hlowText
  rw [hexDigits_one hbounds.2] at hhighText
  rw [hexDigits_one (Nat.lt_of_le_of_lt hbounds.1 hbounds.2)] at hlowText
  refine ⟨?_, hvalid⟩
  rw [← List.append_assoc high, ← List.append_assoc places, upperDigits_append ['I']
    (places ++ (high ++ low)) _ (by simp [digitColumns, hplaces, hhigh, hlow])]
  simp [toChars, hplaceText, ← hhighText, ← hlowText]

/-- A line that is read as an end spells it. -/
theorem spells_of_parseFinish {rest : List Char} {record : Record}
    (h : parseFinish ('E' :: rest) = .ok record) : Spells ('E' :: rest) record := by
  dsimp only [parseFinish] at h
  obtain ⟨hlength, h⟩ := eq_ok_of_guard h
  obtain ⟨start, hstart, h⟩ := exists_of_bind_eq_ok h
  obtain rfl := Except.ok.inj h
  rw [← List.singleton_append] at hstart hlength ⊢
  obtain ⟨digits, back, rfl, hdigits, hdigit, hdigitText⟩ :=
    exists_digits_of_wordAt rfl (by simp) hstart
  have hcolumns : ∀ c ∈ ['E'] ++ digits, c.toNat < 128 := by simpa using hdigit
  rw [← List.append_assoc, byteLength_append, byteLength_of_ascii hcolumns] at hlength
  obtain rfl : back = [] := by
    cases back with
    | nil => rfl
    | cons c back =>
      have hpos := c.utf8Size_pos
      simp [byteLength, hdigits] at hlength
      omega
  refine ⟨?_, trivial⟩
  rw [upperDigits_append ['E'] digits _ (by simp [digitColumns, hdigits])]
  simp [toChars, hdigitText]

/-- A line of fifteen characters has the columns of a name, an origin and a length. -/
theorem exists_header_columns {rest : List Char} (h : ('H' :: rest).length = 15) :
    ∃ name place digits, rest = name ++ (place ++ (digits ++ [])) ∧ name.length = nameLength ∧
      place.length = 4 ∧ digits.length = 4 := by
  have hlength : rest.length = 14 := by simpa using h
  have hrest : rest.drop 10 = (rest.drop 6).drop 4 := by rw [List.drop_drop]
  refine ⟨rest.take 6, (rest.drop 6).take 4, rest.drop 10, ?_, ?_, ?_, ?_⟩
  · rw [hrest, List.append_nil, List.take_append_drop, List.take_append_drop]
  all_goals simp [nameLength]; omega

/-- A line that is read as a header spells it. -/
theorem spells_of_parseHeader {rest : List Char} {record : Record}
    (h : parseHeader ('H' :: rest) = .ok record) : Spells ('H' :: rest) record := by
  dsimp only [parseHeader] at h
  obtain ⟨hline, h⟩ := eq_ok_of_guard h
  simp only [not_or, Decidable.not_not, List.all_eq_true, decide_eq_true_eq] at hline
  obtain ⟨hlength, hascii⟩ := hline
  obtain ⟨name, place, digits, rfl, hname, hplace, hdigits⟩ := exists_header_columns hlength
  have hfront : ∀ c ∈ 'H' :: name, c.toNat < 128 := fun c hc => hascii c (by simp at hc ⊢; tauto)
  have hcolumns : ∀ c ∈ 'H' :: name ++ place, c.toNat < 128 :=
    fun c hc => hascii c (by simp at hc ⊢; tauto)
  have hseventh : ('H' :: name).length = 7 := by simp [hname, nameLength]
  have heleventh : ('H' :: name ++ place).length = 11 := by simp [hname, nameLength, hplace]
  have htitle : (('H' :: (name ++ (place ++ (digits ++ [])))).drop 1).take 6 = name :=
    List.take_left' hname
  have hmark : (('H' :: (name ++ (place ++ (digits ++ [])))).drop 7).take 4 = place := by
    rw [← List.cons_append, List.drop_left' hseventh, List.take_left' hplace]
  have hnamed : HasLine (.header (String.ofList name) none 0) := by
    rw [HasLine, String.toList_ofList]
    exact ⟨hname, fun c hc => hfront c (List.mem_cons_of_mem _ hc)⟩
  rw [hmark, htitle, ← List.cons_append] at h
  rw [← List.cons_append]
  split at h
  · next hrelocatable =>
    obtain ⟨_, ⟨⟩, h⟩ := exists_of_bind_eq_ok h
    obtain ⟨length, hread, h⟩ := exists_of_bind_eq_ok h
    obtain rfl := Except.ok.inj h
    rw [← List.append_assoc] at hread ⊢
    refine ⟨?_, hnamed⟩
    rw [upperDigits_append _ digits _ (by simp [digitColumns, hname, nameLength, hplace, hdigits])]
    simp [toChars, segmentName_eq_self hname, hrelocatable,
      wordText_of_wordAt heleventh hcolumns hdigits hread]
  · obtain ⟨origin, horigin, h⟩ := exists_of_bind_eq_ok h
    obtain ⟨length, hread, h⟩ := exists_of_bind_eq_ok h
    obtain rfl := Except.ok.inj h
    obtain ⟨first, hfirst, rfl⟩ : ∃ first, wordAt ('H' :: name ++ (place ++ (digits ++ []))) 7
        .segmentOrigin = .ok first ∧ some first = origin := by
      cases hword : wordAt ('H' :: name ++ (place ++ (digits ++ []))) 7 .segmentOrigin with
      | error error =>
        rw [hword] at horigin
        cases horigin
      | ok first =>
        rw [hword] at horigin
        exact ⟨first, rfl, Except.ok.inj horigin⟩
    rw [← List.append_assoc] at hread
    refine ⟨?_, hnamed⟩
    rw [← List.append_assoc place, upperDigits_append _ (place ++ digits) _
      (by simp [digitColumns, hname, nameLength, hplace, hdigits])]
    simp [toChars, segmentName_eq_self hname, wordText_of_wordAt hseventh hfront hplace hfirst,
      wordText_of_wordAt heleventh hcolumns hdigits hread]

/-- A line that is read as a record spells it. -/
theorem spells_of_ofChars {line : List Char} {record : Record} (h : ofChars line = .ok record) :
    Spells line record := by
  cases line with
  | nil => cases h
  | cons c rest =>
    rw [ofChars, List.head?_cons] at h
    split at h
    · next hc =>
      obtain rfl := Option.some.inj hc
      exact spells_of_parseHeader h
    · next hc =>
      obtain rfl := Option.some.inj hc
      exact spells_of_parseText h
    · next hc =>
      obtain rfl := Option.some.inj hc
      exact spells_of_parseExport h
    · next hc =>
      obtain rfl := Option.some.inj hc
      exact spells_of_parseImport h
    · next hc =>
      obtain rfl := Option.some.inj hc
      exact spells_of_parseFinish h
    · cases h

/-- A header is written with the segment name that its name is cut or filled up to. -/
theorem toChars_header (name : String) (origin : Option Word) (length : Word) :
    (Record.header name origin length).toChars =
      (Record.header (String.ofList (segmentName name.toList)) origin length).toChars := by
  simp [toChars, segmentName_eq_self (length_segmentName name.toList)]

/-- A header can be read if what it keeps of its name is ASCII, and reads back with that name. -/
theorem ofChars_toChars_header {name : String} {origin : Option Word} {length : Word}
    {parsed : Record} :
    ofChars (Record.header name origin length).toChars = .ok parsed ↔
      (∀ c ∈ name.toList.take nameLength, c.toNat < 128) ∧
        parsed = .header (String.ofList (segmentName name.toList)) origin length := by
  have hfull : (String.ofList (segmentName name.toList)).toList.length = nameLength := by
    rw [String.toList_ofList, length_segmentName]
  have hascii : (∀ c ∈ segmentName name.toList, c.toNat < 128) ↔
      ∀ c ∈ name.toList.take nameLength, c.toNat < 128 := by
    simp only [segmentName, padRight, List.mem_append, or_imp, forall_and, and_iff_left_iff_imp]
    rintro - c hc
    rw [List.eq_of_mem_replicate hc]
    decide
  rw [toChars_header, ofChars_header_iff hfull, String.toList_ofList, hascii]

/-- A record reads back from its line if some line spells it. -/
theorem ofChars_toChars_iff (record : Record) :
    ofChars record.toChars = .ok record ↔ record.HasLine := by
  cases record with
  | header name origin length =>
    rw [ofChars_toChars_header, HasLine]
    constructor
    · rintro ⟨hascii, hsame⟩
      have hname : name.toList = segmentName name.toList := by
        rw [Record.header.injEq] at hsame
        exact (congrArg String.toList hsame.1).trans (String.toList_ofList ..)
      have hlength : name.toList.length = nameLength := by rw [hname, length_segmentName]
      rw [List.take_of_length_le (Nat.le_of_eq hlength)] at hascii
      exact ⟨hlength, hascii⟩
    · rintro ⟨hlength, hascii⟩
      rw [segmentName_eq_self hlength, String.ofList_toList]
      exact ⟨fun c hc => hascii c (List.mem_of_mem_take hc), rfl⟩
  | text word => exact iff_of_true (ofChars_text word) trivial
  | exported name value relocatable => exact ofChars_exported_iff.trans (and_iff_left rfl)
  | imported site => exact ofChars_imported_iff.trans (and_iff_left rfl)
  | finish start => exact iff_of_true (ofChars_finish start) trivial

/-- A line is an error exactly if it can be read as no record. -/
theorem exists_error_iff {line : List Char} :
    (∃ error, ofChars line = .error error) ↔ ∀ record, ofChars line ≠ .ok record := by
  cases ofChars line <;> simp

/-- The line of a record is refused exactly if the record has a name that no line can hold. -/
theorem exists_error_toChars_iff (record : Record) :
    (∃ error, ofChars record.toChars = .error error) ↔ record.Refused := by
  rw [exists_error_iff]
  cases record with
  | header name origin length =>
    simp only [ne_eq, ofChars_toChars_header, Refused, not_and]
    constructor
    · intro h
      by_contra hascii
      refine h _ (fun c hc => Nat.lt_of_not_le fun hlarge => hascii ⟨c, hc, hlarge⟩) rfl
    · rintro ⟨c, hc, hlarge⟩ record hascii
      exact absurd (hascii c hc) (Nat.not_lt.mpr hlarge)
  | text word => exact iff_of_false (fun h => h _ (ofChars_text word)) id
  | exported name value relocatable => simp [ofChars_exported_iff, Refused]
  | imported site => simp [ofChars_imported_iff, Refused]
  | finish start => exact iff_of_false (fun h => h _ (ofChars_finish start)) id

/-- What can be read is what is written, but for small letters among the digits. A record reads back
as itself exactly if some line spells it, and is refused exactly if it has a name that no line can
hold. -/
theorem parse_exact :
    (∀ {line : String} {record : Record}, parse line = .ok record →
        record.toChars = record.upperDigits line.toList ∧ parse record.render = .ok record) ∧
      (∀ record : Record, parse record.render = .ok record ↔ record.HasLine) ∧
      ∀ record : Record, (∃ error, parse record.render = .error error) ↔ record.Refused := by
  simp only [parse, render, String.toList_ofList]
  refine ⟨fun {line record} h => ?_, ofChars_toChars_iff, exists_error_toChars_iff⟩
  have hspells := spells_of_ofChars h
  exact ⟨hspells.upper, (ofChars_toChars_iff record).mpr hspells.hasLine⟩

/-- An import whose line has small digits, before a name that has small letters and stays as it is.
The header of a segment with a short name reads back with another, and that with an accent is
refused. -/
theorem parse_exact_smallDigits :
    ∃ site, parse "I00ffb3Sub" = .ok (.imported site) ∧
      (Record.imported site).render = "I00FFB3Sub" ∧
      parse "I00FFB3Sub" = .ok (.imported site) ∧
      parse (Record.header "sub" none 3).render ≠ .ok (.header "sub" none 3) ∧
      ∃ error, parse (Record.header "Été" none 3).render = .error error := by
  have hread :
      parse "I00ffb3Sub" = .ok (.imported ⟨0xFF, ⟨11, 3, by decide, by decide⟩, "Sub"⟩) := by
    rfl
  obtain ⟨hupper, hagain⟩ := parse_exact.1 hread
  have hline : (Record.imported ⟨0xFF, ⟨11, 3, by decide, by decide⟩, "Sub"⟩).render =
      "I00FFB3Sub" := by
    rw [render, hupper]
    rfl
  refine ⟨_, hread, hline, hline ▸ hagain, fun h => ?_, (parse_exact.2.2 _).mpr ?_⟩
  · have hlength := ((parse_exact.2.1 _).mp h).1
    exact absurd hlength (by decide)
  · exact ⟨'É', by decide, by decide⟩

end Record

end PageMachine
