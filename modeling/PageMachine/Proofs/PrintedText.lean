import PageMachine.Proofs.FailedStep
import PageMachine.Proofs.LinkedConstant
import PageMachine.Proofs.StatementAddress

/-!
# Texts as they are printed

A stored text has a word for each character and a zero behind them. The trap that prints one writes
the characters from an address on, up to a zero or the end of memory, in a single call of the
console. `HoldsText` says what text that is without following the loop, and there is only one; a
text stored by an accepted program is that text wherever linking has put it.

A word of a program stands for a character, but memory may hold half of a surrogate pair, which
stands for none. What the machine does besides writing is not said here.
-/

namespace PageMachine

/-- Whether a character is printed for a word: the one with its number, or the replacement character
for half of a surrogate pair. -/
def PrintsAs (word : Word) (c : Char) : Prop :=
  c.toNat = if 0xD800 ≤ word.toNat ∧ word.toNat ≤ 0xDFFF then 0xFFFD else word.toNat

/-- Characters with the same number are the same. -/
theorem PrintsAs.unique {word : Word} {c other : Char} (h : PrintsAs word c)
    (hother : PrintsAs word other) : c = other := by
  rw [← c.ofNat_toNat, ← other.ofNat_toNat, h, hother]

/-- The numbers of words that are characters are those outside the surrogates. -/
theorem isValidChar_iff_of_word (word : Word) :
    word.toNat.isValidChar ↔ ¬(0xD800 ≤ word.toNat ∧ word.toNat ≤ 0xDFFF) := by
  have hlt := word.isLt
  unfold Nat.isValidChar
  omega

/-- What a word stands for is printed for it. -/
theorem printsAs_charOfWord (word : Word) : PrintsAs word (charOfWord word) := by
  unfold PrintsAs charOfWord
  split
  · next hvalid =>
    rw [if_neg ((isValidChar_iff_of_word word).mp hvalid), Char.ofNat, dif_pos hvalid]
    rfl
  · next hvalid =>
    rw [if_pos (not_not.mp (mt (isValidChar_iff_of_word word).mpr hvalid))]
    rfl

/-- A character below the limit is printed for the word with its number. -/
theorem printsAs_ofNat {c : Char} (hc : c.toNat < addressLimit) :
    PrintsAs (BitVec.ofNat 16 c.toNat) c := by
  have hnumber : (BitVec.ofNat 16 c.toNat).toNat = c.toNat :=
    Nat.mod_eq_of_lt hc
  have hvalid : c.toNat.isValidChar := c.valid
  rw [← hnumber, isValidChar_iff_of_word] at hvalid
  rw [PrintsAs, if_neg hvalid, hnumber]

namespace Memory

/-- Whether memory holds a text from an address on, up to a zero word or the end of memory. -/
structure HoldsText (memory : Memory) (start : Nat) (text : List Char) : Prop where
  /-- The text does not reach beyond the end. -/
  fits : start + text.length ≤ addressLimit
  /-- Each character is printed for a word, which is not zero. -/
  chars : ∀ (i : Nat) (h : i < text.length),
    memory.read (BitVec.ofNat 16 (start + i)) ≠ 0 ∧
      PrintsAs (memory.read (BitVec.ofNat 16 (start + i))) text[i]
  /-- Behind the text is a zero, unless memory ends there. -/
  ends : start + text.length < addressLimit →
    memory.read (BitVec.ofNat 16 (start + text.length)) = 0

variable {memory : Memory}

/-- A text without characters is held before a zero and at the end of memory. -/
theorem holdsText_nil {start : Nat} (hstart : start ≤ addressLimit)
    (hends : start < addressLimit → memory.read (BitVec.ofNat 16 start) = 0) :
    memory.HoldsText start [] where
  fits := hstart
  chars _ h := absurd h (Nat.not_lt_zero _)
  ends := hends

/-- A character in front of a text that memory holds behind it. -/
theorem HoldsText.cons {start : Nat} {text : List Char} {c : Char}
    (h : memory.HoldsText (start + 1) text) (hne : memory.read (BitVec.ofNat 16 start) ≠ 0)
    (hc : PrintsAs (memory.read (BitVec.ofNat 16 start)) c) : memory.HoldsText start (c :: text) where
  fits := by
    have hfits := h.fits
    rw [List.length_cons]
    omega
  chars i hi := by
    cases i with
    | zero => exact ⟨hne, hc⟩
    | succ i =>
      rw [show start + (i + 1) = start + 1 + i by omega]
      exact h.chars i (Nat.lt_of_succ_lt_succ hi)
  ends := by
    rw [List.length_cons, Nat.add_comm text.length 1, ← Nat.add_assoc]
    exact h.ends

/-- The text read up to the end of memory is held. -/
theorem holdsText_textAt (memory : Memory) {count start : Nat}
    (hend : start + count = addressLimit) : memory.HoldsText start (memory.textAt count start) := by
  induction count generalizing start with
  | zero => exact holdsText_nil hend.le fun hstart => absurd hend hstart.ne
  | succ count ih =>
    rw [textAt]
    split
    · next hzero => exact holdsText_nil (hend ▸ Nat.le_add_right ..) fun _ => hzero
    · next hne => exact (ih (by omega)).cons hne (printsAs_charOfWord _)

/-- A text that is held ends no later than another at the same place. -/
theorem HoldsText.length_le {start : Nat} {text other : List Char}
    (h : memory.HoldsText start text) (hother : memory.HoldsText start other) :
    other.length ≤ text.length := by
  by_contra hlonger
  have hlonger := Nat.lt_of_not_le hlonger
  have hfits := hother.fits
  exact (hother.chars text.length hlonger).1 (h.ends (by omega))

/-- Memory holds one text at a place. -/
theorem HoldsText.unique {start : Nat} {text other : List Char}
    (h : memory.HoldsText start text) (hother : memory.HoldsText start other) : other = text := by
  have hlength := Nat.le_antisymm (h.length_le hother) (hother.length_le h)
  refine List.ext_getElem hlength fun i hi hi' => ?_
  exact (hother.chars i hi).2.unique (h.chars i hi').2

end Memory

namespace Machine

variable {σ : Type} [Console σ] {machine : Machine}

/-- Whether the next instruction of a machine that may execute one is the trap that prints a text. -/
structure CallsPrint (machine : Machine) : Prop where
  /-- The machine has not stopped. -/
  running : machine.runState = .running
  /-- The limit on instructions is not reached. -/
  limit : ∀ limit ∈ machine.limit, machine.executed < limit
  /-- The instruction is a trap. -/
  opcode : machine.wordNumber / 4096 = 15
  /-- Its vector is that of the service routine. -/
  vector : machine.wordNumber % 256 = 0x22

/-- Whether a step writes bytes to a console in one call, whose fault is its alarm, and otherwise
only counts the instruction. -/
def StepWrites (machine : Machine) (console : σ) (bytes : ByteArray) : Prop :=
  machine.step console =
    match Console.writeBytes bytes console with
    | (.ok (), rest) => (.ok machine.fetched.settle.runState, machine.fetched.settle, rest)
    | (.error fault, rest) => (.error (.console fault), machine.fetched.fault, rest)

/-- The trap writes the text at the address in register 0. -/
theorem CallsPrint.execute_eq (h : machine.CallsPrint) :
    (machine.fetched.execute machine.instruction machine.state.pc : Execution σ Machine) =
      machine.fetched.serve .writeText :=
  machine.fetched.execute_eq_serve .writeText h.opcode h.vector _

/-- A step that prints makes one call of the console, for the text that memory holds. -/
theorem CallsPrint.stepWrites (h : machine.CallsPrint) (console : σ) {text : List Char}
    (htext : machine.memory.HoldsText (machine.register 0).toNat text) :
    machine.StepWrites console (String.ofList text).toUTF8 := by
  have hstart : (machine.register 0).toNat ≤ addressLimit := (machine.register 0).isLt.le
  have hread := machine.memory.holdsText_textAt (Nat.add_sub_of_le hstart)
  obtain rfl := htext.unique hread
  have hrun := h.execute_eq (σ := σ)
  unfold StepWrites
  split
  · next rest hcall =>
    refine step_of_run_ok h.running h.limit ?_
    rw [hrun]
    exact Execution.run_call_bind _ hcall
  · next fault rest hcall =>
    refine step_of_run_error h.running h.limit ?_
    rw [hrun]
    exact Execution.run_call_bind_of_error _ hcall

end Machine

/-! ## Texts of a program -/

/-- The words of a text, with a zero behind them. -/
def storedWords (text : List Char) : List Word :=
  text.map (fun c => BitVec.ofNat 16 c.toNat) ++ [0]

/-- A stored text has one word more than characters. -/
theorem length_storedWords (text : List Char) : (storedWords text).length = text.length + 1 := by
  simp [storedWords]

namespace Layout

/-- The words of a text are the numbers of its characters, which fit words, and a zero. -/
theorem textWords_spec {text : List Char} {words : List Word} (h : textWords text = .ok words) :
    words = storedWords text ∧
      ∀ c ∈ text, c.toNat < addressLimit := by
  induction text generalizing words with
  | nil =>
    obtain rfl := Except.ok.inj h
    exact ⟨rfl, nofun⟩
  | cons c rest ih =>
    rw [textWords] at h
    split at h
    · next hc =>
      cases hrest : textWords rest with
      | error fault =>
        rw [hrest] at h
        cases h
      | ok behind =>
        rw [hrest] at h
        obtain rfl := Except.ok.inj h
        obtain ⟨rfl, hall⟩ := ih hrest
        exact ⟨rfl, List.forall_mem_cons.mpr ⟨hc, hall⟩⟩
    · cases h

/-- The words of a quoted text are those of the text between the quotes. -/
theorem textContent_quoted (text : List Char) :
    textContent [⟨String.ofList ('"' :: text ++ ['"'])⟩] = textWords text := by
  simp [textContent, unquote?]

variable {layout : Layout} {program : Program}

/-- The statement of a line that stores a text holds the words of the text. -/
theorem LaysOut.content_eq_data {statement : Statement} {line : SourceLine} {text : List Char}
    (h : layout.LaysOut statement line) (hoperation : line.operation = ".STRZ")
    (hoperands : line.operands = [String.ofList ('"' :: text ++ ['"'])]) :
    statement.content = .data (storedWords text) ∧
      ∀ c ∈ text, c.toNat < addressLimit := by
  obtain ⟨before, after, -, hstep, -, -, -⟩ := h
  have hdirective : Directive.ofText? line.operation = some .text :=
    Directive.ofText?_eq_some_iff.mpr hoperation
  rw [hdirective] at hstep
  generalize statement.content = content at hstep ⊢
  cases hstep with
  | text labelled words hlabel htext =>
    rw [hoperands, List.map_singleton, textContent_quoted] at htext
    obtain ⟨rfl, hall⟩ := textWords_spec htext
    exact ⟨rfl, hall⟩

end Layout

/-- The words of data follow one another from the address of their statement on. -/
theorem Statement.words_encode_of_data {statement : Statement} {words : List Word}
    (hcontent : statement.content = .data words) (context : EncodingContext) :
    (statement.encode context).words = words.mapIdx fun n word =>
      ⟨BitVec.ofNat 16 ((statement.encode context).statement.address + n), word, none⟩ := by
  rw [Statement.statement_encode, encode, hcontent]

/-- Words at the places that a block of data has in a program are words of the program. -/
theorem Program.mem_words_of_data {program : Program} {encoded : EncodedStatement}
    {words : List Word} (hencoded : encoded ∈ program.statements)
    (hwords : encoded.words = words.mapIdx fun n word =>
      ⟨BitVec.ofNat 16 (encoded.statement.address + n), word, none⟩) {k : Nat}
    (hk : k < words.length) :
    ⟨BitVec.ofNat 16 (encoded.statement.address + k), words[k], none⟩ ∈ program.words := by
  refine List.mem_append_left _ (List.mem_flatMap_of_mem hencoded ?_)
  rw [hwords]
  exact List.mem_mapIdx.mpr ⟨k, hk, rfl⟩

namespace ObjectModule

/-- Linking at a base keeps the distance to an address. -/
theorem baseAddress_add (moves : Bool) (base : Option Word) (address offset : Word) :
    baseAddress moves base (address + offset) = baseAddress moves base address + offset := by
  cases moves
  · rfl
  · exact add_right_comm address offset _

/-- A block of a module that fits into memory does so where linking at a base takes it. -/
theorem toNat_baseAddress_add_le {module placed : ObjectModule} {base : Option Word}
    (horigin : module.relocatable = true → module.origin = 0)
    (hplaced : module.placeFirst base = .ok placed) {address : Word} {count : Nat}
    (hfits : address.toNat + count ≤ addressLimit)
    (hwithin : address.toNat + count ≤ module.origin.toNat + module.length.toNat) :
    (baseAddress module.relocatable base address).toNat + count ≤ addressLimit := by
  cases hmoves : module.relocatable with
  | false => exact hfits
  | true =>
    rw [horigin hmoves] at hwithin
    cases base with
    | none => simpa [baseAddress] using hfits
    | some origin =>
      have hroom : origin.toNat + module.length.toNat ≤ addressLimit := by
        rw [placeFirst, if_pos hmoves] at hplaced
        exact (relocate_eq_ok_iff.mp hplaced).2.1
      have hadd := Nat.mod_le (address.toNat + origin.toNat) (2 ^ 16)
      have hzero : (0 : Word).toNat = 0 := rfl
      simp only [baseAddress, ↓reduceIte, Option.getD_some, BitVec.toNat_add]
      omega

end ObjectModule

/-- Whether a memory has, from an address on, the words of a text stored by an accepted program, as
linking the program alone has left them. -/
inductive StoredText (memory : Memory) (address : Word) (text : List Char) : Prop
  | intro (hint source : String) (program : Program) (module : ObjectModule) (base : Option Word)
      (image : LinkedImage) (encoded : EncodedStatement) (line : SourceLine)
      (hprogram : assemble hint source = .ok program)
      (hload : load program.objectText = .ok module)
      (hlink : link [module] base = .ok image)
      (hencoded : encoded ∈ program.statements)
      (hscan : (SourceLine.scan encoded.statement.source.toList).2 = some line)
      (hoperation : line.operation = ".STRZ")
      (hoperands : line.operands = [String.ofList ('"' :: text ++ ['"'])])
      (haddress : address =
        ObjectModule.baseAddress program.relocatable base encoded.statement.place)
      (hkept : ∀ k ≤ text.length, memory.read (address + BitVec.ofNat 16 k) =
        image.memory.read (address + BitVec.ofNat 16 k))

/-- A stored text lies in memory as a whole, its characters fit words, and each word is read at its
place. -/
theorem StoredText.spec {memory : Memory} {address : Word} {text : List Char}
    (h : StoredText memory address text) :
    address.toNat + text.length < addressLimit ∧ (∀ c ∈ text, c.toNat < addressLimit) ∧
      ∀ (k : Nat) (hk : k < (storedWords text).length),
        memory.read (address + BitVec.ofNat 16 k) = (storedWords text)[k] := by
  obtain ⟨hint, source, program, module, base, image, encoded, line, hprogram, hload, hlink,
    hencoded, hscan, hoperation, hoperands, rfl, hkept⟩ := h
  let layout := Layout.ofSource hint source
  have hyields : layout.Yields program := yields_of_assemble hprogram
  have hsound : layout.Sound := Layout.sound_ofSource hyields.errors
  have hloads := loadsAs_of_load hprogram hload
  have horigin := hloads.origin_eq_zero hyields hsound
  obtain ⟨placed, hplaced, -, hmemory⟩ := exists_placed_of_link_singleton horigin
    (fun site hsite => hloads.get?_exports_of_mem_imports hyields hsound hsite) hlink
  -- The statement holds the words of the text.
  obtain ⟨statement, hstatement, rfl⟩ : ∃ statement ∈ layout.statements,
      statement.encode (layout.context program.symbols) = encoded := by
    rwa [hyields.statements, List.mem_map] at hencoded
  obtain ⟨own, -, hlaid⟩ := Layout.exists_line_of_mem
    (Layout.forall₂_laysOut_ofSource hyields.errors) hstatement
  rw [Statement.statement_encode] at hscan hkept ⊢
  obtain rfl := hlaid.eq_of_scan hscan
  obtain ⟨hcontent, hnarrow⟩ := hlaid.content_eq_data hoperation hoperands
  -- The words lie in memory, before linking and after it.
  have hend : statement.address + (text.length + 1) ≤ layout.location := by
    simpa [hcontent, Content.size, length_storedWords] using hyields.end_le hsound hstatement
  have hmemoryEnd := (Layout.bounds_of_problems hyields.problems).2.1
  have hlength := hloads.length
  rw [hyields.length] at hlength
  unfold Layout.stop at hmemoryEnd hlength
  have hplace : statement.place.toNat = statement.address := by
    refine Nat.mod_eq_of_lt ?_
    unfold addressLimit at hmemoryEnd
    omega
  have hroom := ObjectModule.toNat_baseAddress_add_le horigin hplaced
    (show statement.place.toNat + (text.length + 1) ≤ addressLimit by omega)
    (by rw [hloads.origin, hyields.origin]; omega)
  rw [hloads.relocatable] at hroom
  refine ⟨hroom, hnarrow, fun k hk => ?_⟩
  have hword := hloads.get?_placeFirst horigin hplaced
    (Program.mem_words_of_data hencoded (statement.words_encode_of_data hcontent _) hk)
  rw [ObjectModule.baseWord_none, Program.linkedAddress, Statement.statement_encode,
    BitVec.ofNat_add, ObjectModule.baseAddress_add] at hword
  rw [hkept k (by rw [length_storedWords] at hk; omega), hmemory, Memory.read]
  exact congrArg (Option.getD · 0) hword

/-- A stored text without a zero character is the text that memory holds at its address. -/
theorem StoredText.holdsText {memory : Memory} {address : Word} {text : List Char}
    (h : StoredText memory address text) (hzero : '\x00' ∉ text) :
    memory.HoldsText address.toNat text := by
  obtain ⟨hfits, hnarrow, hread⟩ := h.spec
  have hplace : ∀ k, BitVec.ofNat 16 (address.toNat + k) = address + BitVec.ofNat 16 k := by
    intro k
    rw [BitVec.ofNat_add, BitVec.ofNat_toNat, BitVec.setWidth_eq]
  constructor
  · exact hfits.le
  · intro i hi
    have hbelow : text[i].toNat < addressLimit := hnarrow _ (List.getElem_mem hi)
    have hword := hread i (by rw [length_storedWords]; omega)
    simp only [storedWords, List.getElem_append_left, List.length_map, hi, List.getElem_map]
      at hword
    rw [hplace, hword]
    refine ⟨fun hnull => hzero ?_, printsAs_ofNat hbelow⟩
    have hnumber : text[i].toNat = 0 := by
      rw [← Nat.mod_eq_of_lt hbelow]
      exact congrArg BitVec.toNat hnull
    have hchar : text[i] = '\x00' := by rw [← text[i].ofNat_toNat, hnumber]
    exact hchar ▸ List.getElem_mem hi
  · intro _
    have hword := hread text.length (by rw [length_storedWords]; omega)
    rw [hplace, hword]
    simp [storedWords]

/-- The trap that prints a text writes the one text that memory holds at the address in register 0,
in one call of the console: the characters of the words from there on, up to a zero or the end of
memory. If the address is that of a text stored by an accepted program, which linking has put
anywhere and nothing has changed since, this is the text as written, unless it has a zero in it. -/
theorem stepWrites_of_callsPrint {σ : Type} [Console σ] {machine : Machine}
    (hcalls : machine.CallsPrint) (console : σ) :
    ∃ text, machine.memory.HoldsText (machine.register 0).toNat text ∧
      (∀ other, machine.memory.HoldsText (machine.register 0).toNat other → other = text) ∧
      machine.StepWrites console (String.ofList text).toUTF8 ∧
      ∀ stored, StoredText machine.memory (machine.register 0) stored → '\x00' ∉ stored →
        stored = text := by
  have hstart : (machine.register 0).toNat ≤ addressLimit := (machine.register 0).isLt.le
  have hholds := machine.memory.holdsText_textAt (Nat.add_sub_of_le hstart)
  refine ⟨_, hholds, fun other => hholds.unique, hcalls.stepWrites console hholds, ?_⟩
  exact fun stored hstored hzero => hholds.unique (hstored.holdsText hzero)

/-- The lines of a program with a text of two characters beyond ASCII. -/
def greetingLines : List String :=
  ["         .ORIG", "         .STRZ   \"é\uFFFF\"", "         .END"]

/-- The program with a text beyond ASCII, and its module. -/
def greeting : Build "main" greetingLines :=
  .ofLines (by decide +kernel)

/-- The program linked so that its last word is the last of memory. -/
def greetingImage : { image // link [greeting.module] (some 0xFFFD) = .ok image } :=
  okValue _ (by decide +kernel)

/-- A machine that prints the text from the first address. -/
def printing : Machine :=
  let machine := Machine.initial (greetingImage.1.memory.write 0 0xF022) 0 1
  { machine with state := { machine.state with registers := #v[0xFFFD, 0, 0, 0, 0, 0, 0, 0] } }

/-- The machine is about to print. -/
theorem callsPrint_printing : printing.CallsPrint where
  running := rfl
  limit := nofun
  opcode := by decide +kernel
  vector := by decide +kernel

/-- The text lies where linking has put it. -/
theorem storedText_printing :
    StoredText printing.memory (printing.register 0) ['é', '\uFFFF'] := by
  obtain ⟨encoded, hencoded, hscan, hplace⟩ : ∃ encoded ∈ greeting.program.statements,
      (SourceLine.scan encoded.statement.source.toList).2 =
        some ⟨"", ".STRZ", ["\"é\uFFFF\""]⟩ ∧ encoded.statement.place = 0 := by
    decide +kernel
  have hmoves : greeting.program.relocatable = true := by decide +kernel
  refine .intro "main" _ _ _ (some 0xFFFD) _ encoded _ greeting.assembled greeting.loaded
    greetingImage.2 hencoded hscan rfl rfl ?_ ?_
  · rw [hplace, hmoves]
    rfl
  · change ∀ k ≤ 2, printing.memory.read (0xFFFD + BitVec.ofNat 16 k) = _
    decide +kernel

/-- The machine prints the text, whose end is the end of memory. -/
theorem stepWrites_printing :
    printing.CallsPrint ∧
      StoredText printing.memory (printing.register 0) ['é', '\uFFFF'] ∧
      printing.StepWrites (BufferConsole.ofInput []) "é\uFFFF".toUTF8 := by
  obtain ⟨text, -, -, hwrites, hstored⟩ :=
    stepWrites_of_callsPrint callsPrint_printing (BufferConsole.ofInput [])
  obtain rfl := hstored _ storedText_printing (by decide)
  exact ⟨callsPrint_printing, storedText_printing, hwrites⟩

end PageMachine
