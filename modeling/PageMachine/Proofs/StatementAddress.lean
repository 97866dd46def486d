import Mathlib.Data.List.Dedup
import PageMachine.Proofs.AlikeLayouts
import PageMachine.Proofs.LiteralPooling
import PageMachine.Proofs.LoadableProgram
import PageMachine.Proofs.StatementSource

/-!
# Where each statement lies

The first pass counts the sizes of the statements and gives its count to labels; the second puts
words at the addresses recorded then. Here the addresses of an accepted program are told from its
source lines alone: a line lies at the origin plus the sizes of the lines before it, its label has
that value, its words fill its size, and the literals stand behind the last. The count of the first
pass saturates, but no accepted program comes near that bound.

What the words are is left out.
-/

namespace PageMachine

/-- The number of words that a content puts into memory. -/
def Content.wordCount : Content → Nat
  | .nothing | .reserve _ | .unknown => 0
  | .machine _ _ | .fill _ => 1
  | .data words => words.length

namespace SourceLine

/-- The number of words that the statement of a line takes up in a program. -/
def size (program : Program) (line : SourceLine) : Nat :=
  match Directive.ofText? line.operation, line.operands with
  | none, _ => if InstructionSet.isMnemonic line.operation then 1 else 0
  | some .fill, _ => 1
  | some .text, [text] => text.toList.tail.dropLast.length + 1
  | some .reserve, [text] => ((program.valueOf? text).getD 0).toNat
  | _, _ => 0

/-- The values of the literals in a line. -/
def literals (line : SourceLine) : List Word :=
  line.operands.filterMap fun text => (parseLiteral text).toOption

/-- A line has the values of its literal operands. -/
theorem mem_literals_iff {line : SourceLine} {value : Word} :
    value ∈ line.literals ↔ ∃ operand ∈ line.operands.map Operand.mk, operand.IsLiteral value := by
  have hkind : ∀ text, parseLiteral text = .ok value → (Operand.mk text).kind = .literal := by
    intro text h
    unfold parseLiteral at h
    split at h
    · rename_i hchars
      rw [Operand.kind, hchars]
      rfl
    · cases h
  simp only [literals, List.mem_filterMap, List.mem_map, exists_exists_and_eq_and,
    Operand.IsLiteral]
  refine exists_congr fun text => and_congr_right fun _ => ⟨fun h => ?_, fun h => ?_⟩
  · have hparse : parseLiteral text = .ok value := by
      cases hparse : parseLiteral text with
      | error => simp [hparse, Except.toOption] at h
      | ok other => simpa [hparse, Except.toOption] using h
    exact ⟨hkind text hparse, hparse⟩
  · rw [h.2]
    rfl

end SourceLine

namespace Layout

/-- Whether the statements of a layout follow one another without gaps. The count stays at its
bound. -/
structure Consecutive (layout : Layout) : Prop where
  /-- Each statement lies behind the sizes of those before it. -/
  addresses : ∀ (i : Nat) (statement : Statement), layout.statements[i]? = some statement →
    statement.address = min maxLocation (layout.origin.toNat +
      ((layout.statements.take i).map fun before => before.content.size).sum)
  /-- The next statement lies behind the sizes of all. -/
  location : layout.location = min maxLocation (layout.origin.toNat +
    (layout.statements.map fun before => before.content.size).sum)

/-- Before the first line nothing is counted. -/
theorem consecutive_initial (hint : String) : (initial hint).Consecutive where
  addresses := by simp [initial]
  location := by simp [initial]

/-- Where a step puts its statement: behind the sizes of those before it. -/
theorem Consecutive.location_spec {layout after : Layout} {line : Nat} {source : SourceLine}
    {directive : Option Directive} {content : Content} (hconsecutive : layout.Consecutive)
    (hstep : layout.Step line source directive after content) :
    after.location = min maxLocation (after.origin.toNat +
      (layout.statements.map fun before => before.content.size).sum) := by
  by_cases hdirective : directive = some .origin
  · subst hdirective
    obtain ⟨hfirst, hlocation, -⟩ := hstep.origin_spec
    have hsmall := after.origin.isLt
    rw [hfirst, hlocation, maxLocation, List.map_nil, List.sum_nil]
    omega
  · obtain ⟨hlocation, -, horigin, -⟩ := hstep.head_eq hdirective
    rw [hlocation, horigin, hconsecutive.location]

/-- A step with its statement keeps the addresses consecutive. -/
theorem Consecutive.push {layout after : Layout} {line : Nat} {text : String} {source : SourceLine}
    {directive : Option Directive} {content : Content} (hconsecutive : layout.Consecutive)
    (hstep : layout.Step line source directive after content) :
    (after.push line text content).Consecutive := by
  have hlocation := hconsecutive.location_spec hstep
  have hstatements := hstep.statements_push text
  have horigin : (after.push line text content).origin = after.origin := rfl
  have hpushed : (after.push line text content).location =
      min maxLocation (after.location + content.size) := rfl
  constructor
  · intro i statement hi
    rw [hstatements] at hi
    rw [hstatements, horigin]
    rcases Nat.lt_or_ge i layout.statements.length with hold | hnew
    · rw [List.getElem?_append_left hold] at hi
      have hne : directive ≠ some .origin := by
        rintro rfl
        rw [hstep.origin_spec.1] at hold
        exact absurd hold (Nat.not_lt_zero i)
      rw [List.take_append_of_le_length hold.le, (hstep.head_eq hne).2.2.1]
      exact hconsecutive.addresses i statement hi
    · obtain ⟨hsingle, rfl⟩ : i = layout.statements.length ∧
          statement = ⟨line, text, after.location, content⟩ := by
        rw [List.getElem?_append_right hnew, List.getElem?_singleton] at hi
        split at hi
        · exact ⟨by omega, (Option.some.inj hi).symm⟩
        · cases hi
      rw [hsingle, List.take_left]
      exact hlocation
  · rw [hpushed, hlocation, hstatements, horigin, List.map_append, List.sum_append]
    simp only [List.map_cons, List.map_nil, List.sum_cons, List.sum_nil]
    omega

/-- The statements of a source text without errors follow one another. -/
theorem consecutive_ofSource {hint source : String} (h : (ofSource hint source).errors = []) :
    (ofSource hint source).Consecutive :=
  ofSource_induction (consecutive_initial hint)
    (fun _ _ _ _ _ _ hconsecutive _ _ hstep => hconsecutive.push hstep) h

/-- A reserved number of words is a constant, or the value of a symbol of the program's own. -/
theorem reserved_of_reserveCount {table : SymbolTable} {operands : List Operand} {count : Nat}
    (h : reserveCount table operands = .ok count) :
    ∃ operand, operands = [operand] ∧
      (operand.kind = .immediate ∧ parseConstant operand.text = .ok (count : Int) ∨
        operand.kind = .symbol ∧ ∃ symbol, table.get? operand.text = some symbol ∧
          symbol.imported = false ∧ symbol.value = (count : Int)) := by
  obtain ⟨operand, value, rfl, rfl, hvalue⟩ := reserveCount_spec h
  have hcount : (value.toNat : Int) = value := by
    by_contra hnegative
    have hnegative : ¬0 ≤ value := by omega
    rcases hvalue with ⟨hkind, hparse⟩ | ⟨hkind, symbol, hsome, hlocal, hfixed, rfl⟩
    · simp [reserveCount, hkind, hparse, hnegative, Except.mapError] at h
    · simp [reserveCount, hkind, hsome, hlocal, hfixed, hnegative] at h
  refine ⟨operand, rfl, hvalue.imp ?_ ?_⟩
  · rintro ⟨hkind, hparse⟩
    exact ⟨hkind, hcount ▸ hparse⟩
  · rintro ⟨hkind, symbol, hsome, hlocal, -, hsame⟩
    exact ⟨hkind, symbol, hsome, hlocal, hsame.trans hcount.symm⟩

/-- A text becomes one word for each character and one behind them. -/
theorem length_textWords {chars : List Char} {words : List Word}
    (h : textWords chars = .ok words) : words.length = chars.length + 1 := by
  induction chars generalizing words with
  | nil =>
    obtain rfl := Except.ok.inj h
    rfl
  | cons c rest ih =>
    unfold textWords at h
    split at h
    · cases hrest : textWords rest with
      | error fault =>
        rw [hrest] at h
        cases h
      | ok behind =>
        rw [hrest] at h
        obtain rfl := Except.ok.inj h
        simp [ih hrest]
    · cases h

/-- A stored text is quoted, and has a word for each character between the quotes and one behind
them. -/
theorem textContent_spec {operands : List Operand} {words : List Word}
    (h : textContent operands = .ok words) :
    ∃ inner, operands = [⟨String.ofList ('"' :: inner ++ ['"'])⟩] ∧
      words.length = inner.length + 1 := by
  unfold textContent at h
  split at h
  · rename_i operand
    split at h
    · rename_i inner hinner
      refine ⟨inner, ?_, length_textWords h⟩
      unfold unquote? at hinner
      split at hinner
      · rename_i rest hchars
        split at hinner
        · rename_i hlast
          obtain rfl := Option.some.inj hinner
          rw [List.cons_append, List.dropLast_append_getLast? _ hlast, ← hchars,
            String.ofList_toList]
        · cases hinner
      · cases hinner
    · cases h
  · cases h

variable {layout : Layout} {program : Program}

/-- The number of words reserved is what the only operand stands for in the program. -/
theorem Yields.valueOf?_of_reserveCount (hyields : layout.Yields program) {after : Layout}
    (hkeeps : layout.Keeps after) {source : SourceLine} {count : Nat}
    (h : reserveCount after.symbols (source.operands.map Operand.mk) = .ok count) :
    ∃ text, source.operands = [text] ∧ program.valueOf? text = some (count : Int) := by
  obtain ⟨operand, hoperands, hvalue⟩ := reserved_of_reserveCount h
  obtain ⟨text, hsource, rfl⟩ := List.map_eq_singleton_iff.mp hoperands
  refine ⟨text, hsource, ?_⟩
  rcases hvalue with ⟨hkind, hparse⟩ | ⟨hkind, symbol, hsome, hlocal, hsame⟩
  · exact Program.valueOf?_of_constant hkind hparse
  · rw [hyields.valueOf?_of_get? hkind (hkeeps.symbols _ _ hsome) hlocal, hsame]

/-- A stored text stands between quotes in its line. -/
theorem quoted_of_textContent {source : SourceLine} {words : List Word}
    (h : textContent (source.operands.map Operand.mk) = .ok words) :
    ∃ inner, source.operands = [String.ofList ('"' :: inner ++ ['"'])] ∧
      words.length = inner.length + 1 := by
  obtain ⟨inner, hoperands, hlength⟩ := textContent_spec h
  obtain ⟨text, hsource, htext⟩ := List.map_eq_singleton_iff.mp hoperands
  obtain rfl := congrArg Operand.text htext
  exact ⟨inner, hsource, hlength⟩

/-- The content of a statement takes up as many words as its line says. -/
theorem Step.size_eq {before after : Layout} {line : Nat} {source : SourceLine}
    {directive : Option Directive} {content : Content} (hyields : layout.Yields program)
    (hstep : before.Step line source directive after content) (hkeeps : layout.Keeps after)
    (hdirective : Directive.ofText? source.operation = directive) :
    content.size = source.size program := by
  unfold SourceLine.size
  rw [hdirective]
  cases hstep with
  | blank labelled hlabel hoperation =>
    rw [hoperation]
    rfl
  | machine labelled definition literals hlabel hfind =>
    exact (if_pos (InstructionSet.isMnemonic_of_find? hfind)).symm
  | text labelled words hlabel htext =>
    obtain ⟨inner, hsource, hlength⟩ := quoted_of_textContent htext
    rw [hsource]
    simp [Content.size, hlength]
  | reserve labelled count hlabel hreserve =>
    obtain ⟨text, hsource, hvalue⟩ := hyields.valueOf?_of_reserveCount hkeeps hreserve
    rw [hsource]
    simp [Content.size, hvalue]
  | _ => rfl

/-- A statement takes up as many words as its line says. -/
theorem LaysOut.size_eq (hyields : layout.Yields program) {statement : Statement}
    {source : SourceLine} (h : layout.LaysOut statement source) :
    statement.content.size = source.size program := by
  obtain ⟨before, after, -, hstep, -, -, hkeeps⟩ := h
  exact hstep.size_eq hyields hkeeps rfl

/-- A name for a constant does not move. -/
theorem Step.get?_constant {before after : Layout} {line : Nat} {source : SourceLine}
    {content : Content} (hstep : before.Step line source (some .equate) after content)
    {text : String} (htext : text ∈ source.operands) (hkind : (Operand.mk text).kind = .immediate) :
    ∃ value, parseConstant text = .ok value ∧
      after.symbols.get? source.label = some (.ofValue value false) := by
  have hmem := List.mem_map_of_mem (f := Operand.mk) htext
  cases hstep with
  | equate symbols symbol hlabel hequates hdefine =>
    have hown := (SymbolTable.get?_define hdefine source.label).trans (if_pos rfl)
    cases hequates with
    | copy operand known hoperands hsymbol =>
      obtain rfl := List.mem_singleton.mp (hoperands ▸ hmem)
      cases hkind.symm.trans hsymbol
    | constant operand value hoperands _ hparse =>
      obtain rfl := List.mem_singleton.mp (hoperands ▸ hmem)
      exact ⟨value, hparse, hown⟩

/-- An alias has the value of its target, and moves if the target does. -/
theorem Step.get?_alias {before after : Layout} {line : Nat} {source : SourceLine}
    {content : Content} (hstep : before.Step line source (some .equate) after content)
    {target : String} (htarget : target ∈ source.operands)
    (hkind : (Operand.mk target).kind = .symbol) :
    ∃ known, after.symbols.get? target = some known ∧
      after.symbols.get? source.label = some (.ofValue known.value known.relocatable) := by
  have hmem := List.mem_map_of_mem (f := Operand.mk) htarget
  cases hstep with
  | equate symbols symbol hlabel hequates hdefine =>
    have hown := (SymbolTable.get?_define hdefine source.label).trans (if_pos rfl)
    cases hequates with
    | copy operand known hoperands _ hsome =>
      obtain rfl := List.mem_singleton.mp (hoperands ▸ hmem)
      exact ⟨known, SymbolTable.get?_define_of_get? hdefine hsome, hown⟩
    | constant operand value hoperands himmediate =>
      obtain rfl := List.mem_singleton.mp (hoperands ▸ hmem)
      cases hkind.symm.trans himmediate

/-- The words of a statement fill its size, unless it leaves words free. -/
theorem Step.wordCount_eq {before after : Layout} {line : Nat} {source : SourceLine}
    {directive : Option Directive} {content : Content}
    (hstep : before.Step line source directive after content) :
    content.wordCount = if directive = some .reserve then 0 else content.size := by
  cases hstep <;> rfl

/-- A stored text is the only operand of its line, and quoted. -/
theorem Step.quoted {before after : Layout} {line : Nat} {source : SourceLine} {content : Content}
    (hstep : before.Step line source (some .text) after content) :
    ∃ inner, source.operands = [String.ofList ('"' :: inner ++ ['"'])] := by
  cases hstep with
  | text labelled words hlabel htext =>
    obtain ⟨inner, hsource, -⟩ := quoted_of_textContent htext
    exact ⟨inner, hsource⟩

/-- The number of words left free is the only operand of its line, and known. -/
theorem Step.reserved {before after : Layout} {line : Nat} {source : SourceLine}
    {content : Content} (hyields : layout.Yields program)
    (hstep : before.Step line source (some .reserve) after content)
    (hkeeps : layout.Keeps after) :
    ∃ (text : String) (count : Nat), source.operands = [text] ∧
      program.valueOf? text = some (count : Int) := by
  cases hstep with
  | reserve labelled count hlabel hreserve =>
    obtain ⟨text, hsource, hvalue⟩ := hyields.valueOf?_of_reserveCount hkeeps hreserve
    exact ⟨text, count, hsource, hvalue⟩

/-- The operand that fills a word is the only one, a constant or a name. -/
theorem fillOperand_spec {operands : List Operand} {operand : Operand}
    (h : fillOperand operands = .ok operand) :
    operands = [operand] ∧ (operand.kind = .immediate ∨ operand.kind = .symbol) := by
  unfold fillOperand at h
  split at h
  · split at h
    · rename_i hkind
      obtain rfl := Except.ok.inj h
      exact ⟨rfl, .inl hkind⟩
    · rename_i hkind
      obtain rfl := Except.ok.inj h
      exact ⟨rfl, .inr hkind⟩
    · cases h
  · cases h

/-- The operands of a directive are constants and names, unless it stores a text. -/
theorem Step.constant_or_name {before after : Layout} {line : Nat} {source : SourceLine}
    {directive : Directive} {content : Content}
    (hstep : before.Step line source (some directive) after content) (htext : directive ≠ .text) :
    ∀ operand ∈ source.operands.map Operand.mk,
      operand.kind = .immediate ∨ operand.kind = .symbol := by
  have honly : ∀ {only : Operand}, source.operands.map Operand.mk = [only] →
      only.kind = .immediate ∨ only.kind = .symbol →
      ∀ operand ∈ source.operands.map Operand.mk,
        operand.kind = .immediate ∨ operand.kind = .symbol := by
    intro only hoperands hkind operand hoperand
    rw [hoperands] at hoperand
    obtain rfl := List.mem_singleton.mp hoperand
    exact hkind
  cases hstep with
  | origin placed labelled _ _ hplace =>
    cases hplace with
    | free hoperands => simp [hoperands]
    | given operand origin hoperands hkind => exact honly hoperands (.inl hkind)
  | equate symbols symbol _ hequates =>
    cases hequates with
    | copy operand target hoperands hkind => exact honly hoperands (.inr hkind)
    | constant operand value hoperands hkind => exact honly hoperands (.inl hkind)
  | fill labelled operand _ hfill =>
    obtain ⟨hoperands, hkind⟩ := fillOperand_spec hfill
    exact honly hoperands hkind
  | text => exact absurd rfl htext
  | reserve labelled count _ hreserve =>
    obtain ⟨operand, hoperands, hvalue⟩ := reserved_of_reserveCount hreserve
    exact honly hoperands (hvalue.imp And.left And.left)
  | finish _ _ hoperands => simp [hoperands]
  | finishAt operand _ _ hoperands hkind => exact honly hoperands hkind
  | exports _ _ hkinds => exact fun operand hoperand => .inr (hkinds operand hoperand)
  | imports _ _ _ hkinds => exact fun operand hoperand => .inr (hkinds operand hoperand)

/-- The operands of a directive are no literals. -/
theorem Step.kind_ne_literal {before after : Layout} {line : Nat} {source : SourceLine}
    {directive : Directive} {content : Content}
    (hstep : before.Step line source (some directive) after content) :
    ∀ operand ∈ source.operands.map Operand.mk, operand.kind ≠ .literal := by
  intro operand hoperand
  by_cases htext : directive = .text
  · subst htext
    obtain ⟨inner, hsource⟩ := hstep.quoted
    rw [hsource] at hoperand
    obtain rfl := List.mem_singleton.mp hoperand
    simp [Operand.kind, OperandKind.ofText]
  · rcases hstep.constant_or_name htext operand hoperand with hkind | hkind <;> simp [hkind]

/-- The content of a statement uses the literals of its line. -/
theorem Step.uses_iff {before after : Layout} {line : Nat} {source : SourceLine}
    {directive : Option Directive} {content : Content}
    (hstep : before.Step line source directive after content)
    (hblank : source.operation = "" → source.operands = []) {value : Word} :
    content.Uses value ↔ ∃ operand ∈ source.operands.map Operand.mk, operand.IsLiteral value := by
  have hneither : (∀ operand ∈ source.operands.map Operand.mk, operand.kind ≠ .literal) →
      (∀ definition operands, content ≠ .machine definition operands) →
      (content.Uses value ↔
        ∃ operand ∈ source.operands.map Operand.mk, operand.IsLiteral value) :=
    fun hkinds hcontent =>
      ⟨fun ⟨definition, operands, hmachine, _⟩ => absurd hmachine (hcontent definition operands),
        fun ⟨operand, hoperand, hkind, _⟩ => absurd hkind (hkinds operand hoperand)⟩
  cases directive with
  | some directive =>
    refine hneither hstep.kind_ne_literal ?_
    cases hstep <;> exact nofun
  | none =>
    cases hstep with
    | blank _ _ hoperation => exact hneither (by simp [hblank hoperation]) nofun
    | machine _ definition =>
      constructor
      · rintro ⟨_, _, hmachine, husage⟩
        cases hmachine
        exact husage
      · exact fun husage => ⟨definition, _, rfl, husage⟩

/-- A statement uses the literals of its line. -/
theorem LaysOut.uses_iff {statement : Statement} {source : SourceLine}
    (h : layout.LaysOut statement source) {value : Word} :
    statement.content.Uses value ↔ value ∈ source.literals := by
  obtain ⟨before, after, -, hstep, hblank, -, -⟩ := h
  rw [SourceLine.mem_literals_iff]
  exact hstep.uses_iff hblank

end Layout

/-- The addresses of a block are its numbers, if memory holds it. -/
theorem map_toNat_blockAddresses {first count : Nat} (hfit : first + count ≤ addressLimit) :
    (blockAddresses first count).map BitVec.toNat = List.range' first count := by
  rw [addressLimit] at hfit
  rw [blockAddresses, List.map_map, List.range'_eq_map_range]
  refine List.map_congr_left fun n hn => ?_
  have hbound := List.mem_range.mp hn
  rw [Function.comp_apply, BitVec.toNat_ofNat, Nat.mod_eq_of_lt (by omega)]

/-- The words of a statement follow one another from its address on. -/
theorem Statement.map_address_encode (statement : Statement) (context : EncodingContext) :
    (statement.encode context).words.map TaggedWord.address =
      blockAddresses statement.address statement.content.wordCount := by
  obtain ⟨line, source, address, content⟩ := statement
  cases content with
  | data words => apply List.ext_getElem <;> simp [encode, blockAddresses, Content.wordCount]
  | _ => rfl

namespace Program

/-- The address of the line at a position: the origin plus the sizes of the lines before it. -/
def lineAddress (program : Program) (lines : List SourceLine) (i : Nat) : Nat :=
  program.origin.toNat + ((lines.take i).map (SourceLine.size program)).sum

/-- Whether a statement of a program stands for a line and lies at an address. -/
structure LiesAt (program : Program) (encoded : EncodedStatement) (line : SourceLine)
    (address : Nat) : Prop where
  /-- The statement was read as the line. -/
  scan : (SourceLine.scan encoded.statement.source.toList).2 = some line
  /-- A label has the address of its statement, and moves with the program. -/
  label : line.label ≠ "" → line.operation ≠ ".EQU" →
    ∃ symbol, program.symbols.get? line.label = some symbol ∧ symbol.value = address ∧
      symbol.relocatable = program.relocatable
  /-- The origin lies at the origin. -/
  origin : line.operation = ".ORIG" → address = program.origin.toNat
  /-- An alias has the value of its target, and moves if the target does. -/
  equated : line.operation = ".EQU" → ∀ target ∈ line.operands,
    (Operand.mk target).kind = .symbol → ∃ own known,
      program.symbols.get? line.label = some own ∧ program.symbols.get? target = some known ∧
        own.value = known.value ∧ own.relocatable = known.relocatable
  /-- A name for a constant has its value and does not move. -/
  constant : line.operation = ".EQU" → ∀ text ∈ line.operands,
    (Operand.mk text).kind = .immediate → ∃ own,
      program.symbols.get? line.label = some own ∧ program.valueOf? text = some own.value ∧
        own.relocatable = false
  /-- A stored text is quoted. -/
  text : line.operation = ".STRZ" →
    ∃ inner, line.operands = [String.ofList ('"' :: inner ++ ['"'])]
  /-- The number of words left free is known. -/
  reserve : line.operation = ".BLKW" →
    ∃ (text : String) (count : Nat), line.operands = [text] ∧
      program.valueOf? text = some (count : Int)
  /-- The words fill the size of the line, unless it leaves words free. -/
  words : encoded.words.map (fun word => word.address.toNat) =
    if line.operation = ".BLKW" then [] else List.range' address (line.size program)

end Program

namespace Layout

variable {layout : Layout} {program : Program}

/-- What the first pass knew of a symbol still holds in the program. -/
theorem Yields.exists_symbol_of_keeps (hyields : layout.Yields program) {after : Layout}
    (hkeeps : layout.Keeps after) {name : String} {known : Symbol}
    (hknown : after.symbols.get? name = some known) :
    ∃ symbol, program.symbols.get? name = some symbol ∧ symbol.value = known.value ∧
      symbol.relocatable = known.relocatable := by
  obtain ⟨symbol, hsome, hvalue, hmoves, -⟩ :=
    hyields.exists_symbol (hkeeps.symbols name known hknown)
  exact ⟨symbol, hsome, hvalue, hmoves⟩

/-- A label has the address of its statement, and moves with the program. -/
theorem Yields.exists_label (hyields : layout.Yields program) (hsound : layout.Sound)
    {statement : Statement} {source : SourceLine} (hstatement : statement ∈ layout.statements)
    (hlaid : layout.LaysOut statement source) (hne : source.label ≠ "")
    (hoperation : source.operation ≠ ".EQU") :
    ∃ symbol, program.symbols.get? source.label = some symbol ∧
      symbol.value = statement.address ∧ symbol.relocatable = program.relocatable := by
  have hend := hyields.end_le hsound hstatement
  obtain ⟨-, hmemory, -⟩ := bounds_of_problems hyields.problems
  obtain ⟨before, after, -, hstep, -, haddress, hkeeps⟩ := hlaid
  have hequate : Directive.ofText? source.operation ≠ some .equate :=
    fun hsome => hoperation (Directive.ofText?_eq_some_iff.mp hsome)
  obtain ⟨symbol, hsome, hvalue, hmoves⟩ :=
    hyields.exists_symbol_of_keeps hkeeps (hstep.get?_label hne hequate)
  have hsmall : min after.location Text.maxInt32 = statement.address := by
    rw [stop, addressLimit] at hmemory
    rw [haddress, Text.maxInt32]
    omega
  refine ⟨symbol, hsome, ?_, ?_⟩
  · rw [hvalue, ← hsmall]
    rfl
  · rw [hmoves, hyields.relocatable, hkeeps.relocatable]
    rfl

/-- The words of a statement fill the size of its line, unless the line leaves words free. -/
theorem Yields.map_toNat_words (hyields : layout.Yields program) (hsound : layout.Sound)
    {statement : Statement} {source : SourceLine} (hstatement : statement ∈ layout.statements)
    (hlaid : layout.LaysOut statement source) :
    (statement.encode (layout.context program.symbols)).words.map
        (fun word => word.address.toNat) =
      if source.operation = ".BLKW" then []
      else List.range' statement.address (source.size program) := by
  have hsize := hlaid.size_eq hyields
  have hend := hyields.end_le hsound hstatement
  obtain ⟨-, hmemory, -⟩ := bounds_of_problems hyields.problems
  obtain ⟨before, after, -, hstep, -, -, -⟩ := hlaid
  have hcount := hstep.wordCount_eq
  have hfit : statement.address + statement.content.wordCount ≤ addressLimit := by
    rw [stop] at hmemory
    split at hcount <;> omega
  calc (statement.encode (layout.context program.symbols)).words.map
        (fun word => word.address.toNat)
      = ((statement.encode (layout.context program.symbols)).words.map
          TaggedWord.address).map BitVec.toNat := by
        rw [List.map_map]
        rfl
    _ = List.range' statement.address statement.content.wordCount := by
        rw [statement.map_address_encode, map_toNat_blockAddresses hfit]
    _ = _ := by
        rw [hcount, ← hsize]
        simp only [Directive.ofText?_eq_some_iff, Directive.name]
        split <;> rfl

/-- A statement lies where the first pass put it. -/
theorem Yields.liesAt (hyields : layout.Yields program) (hsound : layout.Sound)
    {statement : Statement} {source : SourceLine} (hstatement : statement ∈ layout.statements)
    (hlaid : layout.LaysOut statement source) :
    program.LiesAt (statement.encode (layout.context program.symbols)) source
      statement.address := by
  have hlabel := hyields.exists_label hsound hstatement hlaid
  have hwords := hyields.map_toNat_words hsound hstatement hlaid
  obtain ⟨before, after, hscan, hstep, -, haddress, hkeeps⟩ := hlaid
  have hdirective : ∀ directive : Directive, source.operation = directive.name →
      before.Step statement.line source (some directive) after statement.content := by
    intro directive hoperation
    rw [← Directive.ofText?_eq_some_iff.mpr hoperation]
    exact hstep
  exact
    { scan := by rw [Statement.statement_encode, hscan]
      label := hlabel
      origin := by
        intro hoperation
        rw [haddress, (hdirective .origin hoperation).origin_spec.2.1, hyields.origin,
          hkeeps.origin]
      equated := by
        intro hoperation target htarget hkind
        obtain ⟨target, hsome, hlabel⟩ :=
          (hdirective .equate hoperation).get?_alias htarget hkind
        obtain ⟨known, hget, hvalue, hmoves⟩ := hyields.exists_symbol_of_keeps hkeeps hsome
        obtain ⟨own, hown, hsame, hsames⟩ := hyields.exists_symbol_of_keeps hkeeps hlabel
        exact ⟨own, known, hown, hget, hsame.trans hvalue.symm, hsames.trans hmoves.symm⟩
      constant := by
        intro hoperation text htext hkind
        obtain ⟨value, hparse, hlabel⟩ :=
          (hdirective .equate hoperation).get?_constant htext hkind
        obtain ⟨own, hown, hvalue, hmoves⟩ := hyields.exists_symbol_of_keeps hkeeps hlabel
        refine ⟨own, hown, ?_, hmoves⟩
        rw [hvalue]
        exact Program.valueOf?_of_constant hkind hparse
      text := fun hoperation => (hdirective .text hoperation).quoted
      reserve := fun hoperation => (hdirective .reserve hoperation).reserved hyields hkeeps
      words := hwords }

/-- The sizes of the statements are those of their lines. -/
theorem Yields.map_size (hyields : layout.Yields program) {lines : List SourceLine}
    (hlines : List.Forall₂ layout.LaysOut layout.statements lines) :
    (layout.statements.map fun statement => statement.content.size) =
      lines.map (SourceLine.size program) := by
  rw [← List.forall₂_eq_eq_eq, List.forall₂_map_left_iff, List.forall₂_map_right_iff]
  exact hlines.imp fun _ _ hlaid => hlaid.size_eq hyields

/-- A statement lies at the address of its line. -/
theorem Yields.address_eq (hyields : layout.Yields program) (hsound : layout.Sound)
    (hconsecutive : layout.Consecutive) {lines : List SourceLine}
    (hlines : List.Forall₂ layout.LaysOut layout.statements lines) {i : Nat}
    {statement : Statement} (hi : layout.statements[i]? = some statement) :
    statement.address = program.lineAddress lines i := by
  have hend := hyields.end_le hsound (List.mem_of_getElem? hi)
  have haddress := hconsecutive.addresses i statement hi
  obtain ⟨-, hmemory, -⟩ := bounds_of_problems hyields.problems
  rw [List.map_take, hyields.map_size hlines, ← List.map_take, ← hyields.origin] at haddress
  rw [stop, addressLimit] at hmemory
  rw [maxLocation] at haddress
  rw [Program.lineAddress]
  omega

/-- The literals begin at the address behind the last line. -/
theorem Yields.location_eq (hyields : layout.Yields program) (hconsecutive : layout.Consecutive)
    {lines : List SourceLine}
    (hlines : List.Forall₂ layout.LaysOut layout.statements lines) :
    layout.location = program.lineAddress lines lines.length := by
  have hlocation := hconsecutive.location
  obtain ⟨-, hmemory, -⟩ := bounds_of_problems hyields.problems
  rw [hyields.map_size hlines, ← hyields.origin] at hlocation
  rw [stop, addressLimit] at hmemory
  rw [maxLocation] at hlocation
  rw [Program.lineAddress, List.take_length]
  omega

/-- The words of the literals follow one another from the end of the statements on. -/
theorem Yields.map_address_literalWords (hyields : layout.Yields program) :
    program.literalWords.map TaggedWord.address =
      blockAddresses layout.location program.literals.size := by
  rw [Program.literalWords, hyields.literals, List.map_map]
  exact LiteralPool.map_fst_toList layout.literals layout.location

/-- There are as many literals as different values of literals in the lines. -/
theorem Pooled.size_literals (hpooled : layout.Pooled) {lines : List SourceLine}
    (hlines : List.Forall₂ layout.LaysOut layout.statements lines) :
    layout.literals.size = (lines.flatMap SourceLine.literals).dedup.length := by
  have hperm := List.perm_ext_iff_of_nodup hpooled.nodup
    (List.nodup_dedup (lines.flatMap SourceLine.literals))
  refine (hperm.mpr fun value => ?_).length_eq
  rw [hpooled.values, List.mem_dedup, List.mem_flatMap]
  constructor
  · rintro ⟨statement, hstatement, husage⟩
    obtain ⟨line, hline, hlaid⟩ := exists_line_of_mem hlines hstatement
    exact ⟨line, hline, hlaid.uses_iff.mp husage⟩
  · rintro ⟨line, hline, hvalue⟩
    obtain ⟨statement, hstatement, hlaid⟩ := exists_statement_of_mem hlines hline
    exact ⟨statement, hstatement, hlaid.uses_iff.mpr hvalue⟩

end Layout

/-- The statements of an accepted source text are those of its lines, each at the origin plus the
sizes of the lines before it: labels have these addresses, words fill the sizes, the literals stand
behind the last line, and the length counts the sizes and the different literals. -/
theorem liesAt_of_assemble {hint source : String} {program : Program}
    (h : assemble hint source = .ok program) :
    program.statements.length = (SourceLine.ofSource source).length ∧
      (∀ (i : Nat) (line : SourceLine) (encoded : EncodedStatement),
        (SourceLine.ofSource source)[i]? = some line → program.statements[i]? = some encoded →
        program.LiesAt encoded line (program.lineAddress (SourceLine.ofSource source) i)) ∧
      program.literals.offset = BitVec.ofNat 16
        (program.lineAddress (SourceLine.ofSource source) (SourceLine.ofSource source).length) ∧
      program.literalWords.map (fun word => word.address.toNat) = List.range'
        (program.lineAddress (SourceLine.ofSource source) (SourceLine.ofSource source).length)
        program.literals.size ∧
      program.length = ((SourceLine.ofSource source).map (SourceLine.size program)).sum +
        ((SourceLine.ofSource source).flatMap SourceLine.literals).dedup.length := by
  have hyields := yields_of_assemble h
  have hsound := Layout.sound_ofSource hyields.errors
  have hconsecutive := Layout.consecutive_ofSource hyields.errors
  have hlines := Layout.forall₂_laysOut_ofSource hyields.errors
  have hlocation := hyields.location_eq hconsecutive hlines
  have hliterals := (Layout.pooled_ofSource hint source).size_literals hlines
  obtain ⟨-, hmemory, -⟩ := Layout.bounds_of_problems hyields.problems
  refine ⟨?_, ?_, ?_, ?_, ?_⟩
  · rw [hyields.statements, List.length_map, hlines.length_eq]
  · intro i line encoded hline hencoded
    rw [hyields.statements, List.getElem?_map] at hencoded
    obtain ⟨statement, hstatement, rfl⟩ := Option.map_eq_some_iff.mp hencoded
    rw [← hyields.address_eq hsound hconsecutive hlines hstatement]
    refine hyields.liesAt hsound (List.mem_of_getElem? hstatement) ?_
    obtain ⟨hi, rfl⟩ := List.getElem?_eq_some_iff.mp hstatement
    obtain ⟨hj, rfl⟩ := List.getElem?_eq_some_iff.mp hline
    exact hlines.get hi hj
  · rw [hyields.literals, ← hlocation]
    rfl
  · have hfit : (Layout.ofSource hint source).location + program.literals.size ≤ addressLimit := by
      rw [hyields.literals]
      exact hmemory
    rw [← hlocation, ← map_toNat_blockAddresses hfit, ← hyields.map_address_literalWords,
      List.map_map]
    rfl
  · rw [hyields.length, Layout.stop, hliterals, hlocation, ← hyields.origin, Program.lineAddress,
      List.take_length]
    omega

/-- The lines of a program with a comment, a text, words left free and a literal used twice. -/
def mixedLines : List String :=
  ["Main     .ORIG   x3000", "; Sizes", "Size     .EQU    #2", "Start    LD      R0,=#5",
    "         LD      R1,=x5", "Text     .STRZ   \"ab\"", "Space    .BLKW   Size",
    "Again    .EQU    Start", "Last     .FILL   Again", "         .END    Start"]

/-- The program of lines of many kinds, and its module. -/
def mixed : Build "main" mixedLines :=
  .ofLines (by decide +kernel)

/-- The last word of `mixed` lies behind seven others, and the literal behind it. -/
theorem liesAt_mixedLines :
    ∃ program encoded line, assemble "main" (Text.unlines mixedLines) = .ok program ∧
      line.label = "Last" ∧
      (SourceLine.ofSource (Text.unlines mixedLines))[7]? = some line ∧
      program.statements[7]? = some encoded ∧ program.LiesAt encoded line 0x3007 ∧
      program.literals.offset = 0x3008 ∧ program.length = 9 := by
  have hlines : SourceLine.ofSource (Text.unlines mixedLines) =
      mixedLines.filterMap SourceLine.read? := by
    rw [SourceLine.ofSource, mixed.lines_eq]
  obtain ⟨-, hlies, hoffset, -, hlength⟩ := liesAt_of_assemble mixed.assembled
  rw [hlines] at hlies hoffset hlength ⊢
  have hline : (mixedLines.filterMap SourceLine.read?)[7]? =
      some ⟨"Last", ".FILL", ["Again"]⟩ := by
    decide +kernel
  have hcounts : mixed.program.lineAddress (mixedLines.filterMap SourceLine.read?) 7 = 0x3007 ∧
      mixed.program.lineAddress (mixedLines.filterMap SourceLine.read?)
        (mixedLines.filterMap SourceLine.read?).length = 0x3008 ∧
      ((mixedLines.filterMap SourceLine.read?).map (SourceLine.size mixed.program)).sum +
        ((mixedLines.filterMap SourceLine.read?).flatMap SourceLine.literals).dedup.length = 9 ∧
      (mixed.program.statements[7]?).isSome = true := by
    decide +kernel
  obtain ⟨haddress, hend, hnine, hencoded⟩ := hcounts
  obtain ⟨encoded, hencoded⟩ := Option.isSome_iff_exists.mp hencoded
  refine ⟨_, encoded, _, mixed.assembled, rfl, hline, hencoded, ?_, ?_, hlength.trans hnine⟩
  · exact haddress ▸ hlies 7 _ encoded hline hencoded
  · rw [hoffset, hend]
    rfl

end PageMachine
