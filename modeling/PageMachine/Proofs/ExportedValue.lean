import PageMachine.Proofs.WellFormedProgram

/-!
# The values of exports

A symbol has a value of 32 bits, an export record one of sixteen. The value of a label is the address
of its statement, which no accepted program puts beyond the end of memory; but a label may stand
right behind the last word there, and the constant of an equation is not held against any bound. So
the record determines the value, as itself or as a negative constant, exactly if the value is in the
range of a word, and this is left to whoever writes the constant.

Imports have no value of their own and are not exported.
-/

namespace PageMachine

/-- Whether a line gives its label a constant. -/
def SourceLine.EquatesConstant (line : SourceLine) (value : Int) : Prop :=
  line.operation = ".EQU" ∧ ∃ text ∈ line.operands,
    (Operand.mk text).kind = .immediate ∧ parseConstant text = .ok value

namespace Layout

/-- Where the value of a symbol comes from, if it is not imported: from the place of a statement, or
from a constant in its line. -/
inductive Valued (layout : Layout) (symbol : Symbol) : Prop
  | imported (himported : symbol.imported = true)
  | address (statement : Statement) (hstatement : statement ∈ layout.statements)
      (hvalue : symbol.value = (min statement.address Text.maxInt32 : Nat))
  | constant (statement : Statement) (source : SourceLine)
      (hstatement : statement ∈ layout.statements)
      (hscan : SourceLine.scan statement.source.toList = ([], some source))
      (hequates : source.EquatesConstant symbol.value) (hstays : symbol.relocatable = false)

/-- More statements leave it where it is. -/
theorem Valued.mono {layout later : Layout} {symbol : Symbol} (h : layout.Valued symbol)
    (hstatements : layout.statements ⊆ later.statements) : later.Valued symbol := by
  cases h with
  | imported himported => exact .imported himported
  | address statement hstatement hvalue =>
    exact .address statement (hstatements hstatement) hvalue
  | constant statement source hstatement hscan hequates hstays =>
    exact .constant statement source (hstatements hstatement) hscan hequates hstays

/-- A symbol with the value of another that is not imported has it from the same place. -/
theorem Valued.congr {layout : Layout} {symbol other : Symbol} (h : layout.Valued symbol)
    (himported : symbol.imported = false) (hvalue : other.value = symbol.value)
    (hmoves : other.relocatable = symbol.relocatable) : layout.Valued other := by
  cases h with
  | imported hforeign => cases himported.symm.trans hforeign
  | address statement hstatement hplace =>
    exact .address statement hstatement (hvalue.trans hplace)
  | constant statement source hstatement hscan hequates hstays =>
    exact .constant statement source hstatement hscan (hvalue ▸ hequates) (hmoves.trans hstays)

/-- What an equation gives to its label comes from another symbol, or from its own line. -/
theorem Equates.valued {layout : Layout} {table : SymbolTable} {source : SourceLine}
    {symbol : Symbol} (h : Equates table (source.operands.map Operand.mk) symbol)
    (hoperation : source.operation = ".EQU") {statement : Statement}
    (hstatement : statement ∈ layout.statements)
    (hscan : SourceLine.scan statement.source.toList = ([], some source))
    (hknown : ∀ name known, table.get? name = some known → layout.Valued known) :
    layout.Valued symbol := by
  cases h with
  | copy operand target _ _ hsome himported =>
    exact (hknown _ target hsome).congr himported rfl rfl
  | constant operand value hoperands hkind hparse =>
    obtain ⟨text, hsource, rfl⟩ := List.map_eq_singleton_iff.mp hoperands
    have hequates : source.EquatesConstant value :=
      ⟨hoperation, text, hsource ▸ List.mem_singleton_self _, hkind, hparse⟩
    exact .constant statement source hstatement hscan hequates rfl

/-- A step with its statement gives every symbol a value from somewhere. -/
theorem Step.valued_push {layout after : Layout} {line : Nat} {text : String} {source : SourceLine}
    {content : Content} (hknown : ∀ name symbol, layout.symbols.get? name = some symbol →
      layout.Valued symbol)
    (hscan : SourceLine.scan text.toList = ([], some source))
    (hstep : layout.Step line source (Directive.ofText? source.operation) after content) :
    ∀ name symbol, (after.push line text content).symbols.get? name = some symbol →
      (after.push line text content).Valued symbol := by
  have hstatements := hstep.statements_push text
  have hold : ∀ name symbol, layout.symbols.get? name = some symbol →
      (after.push line text content).Valued symbol := by
    intro name symbol hsome
    refine (hknown name symbol hsome).mono ?_
    rw [hstatements]
    exact List.subset_append_left _ _
  have hown : ⟨line, text, after.location, content⟩ ∈
      (after.push line text content).statements := by
    rw [hstatements]
    exact List.mem_append_right _ (List.mem_singleton_self _)
  have hlabel : (after.push line text content).Valued
      (.ofValue (min after.location Text.maxInt32 : Nat) after.relocatable) :=
    .address _ hown rfl
  by_cases hequate : Directive.ofText? source.operation = some .equate
  · have hoperation := Directive.ofText?_eq_some_iff.mp hequate
    refine hstep.forall_symbols (fun _ => hlabel) (fun _ symbol hequates => ?_)
      (fun _ _ => .imported rfl) hold
    exact hequates.valued hoperation hown hscan hold
  · -- The label of any other line has the address of its statement.
    intro name symbol hsome
    by_cases hname : name = source.label ∧ source.label ≠ ""
    · obtain ⟨rfl, hne⟩ := hname
      obtain rfl := Option.some.inj ((hstep.get?_label hne hequate).symm.trans hsome)
      exact hlabel
    · refine hstep.forall_symbols (P := fun name symbol =>
        ¬(name = source.label ∧ source.label ≠ "") → (after.push line text content).Valued symbol)
        (fun _ _ => hlabel) (fun hne _ _ hother => absurd ⟨rfl, hne⟩ hother)
        (fun _ _ _ => .imported rfl) (fun name symbol hsome _ => hold name symbol hsome)
        name symbol hsome hname

/-- Every symbol of a source text without errors has its value from somewhere. -/
theorem valued_ofSource {hint source : String} (h : (ofSource hint source).errors = [])
    {name : String} {symbol : Symbol}
    (hsome : (ofSource hint source).symbols.get? name = some symbol) :
    (ofSource hint source).Valued symbol := by
  refine ofSource_induction (motive := fun layout => ∀ name symbol,
    layout.symbols.get? name = some symbol → layout.Valued symbol) ?_ ?_ h name symbol hsome
  · simp [initial, SymbolTable.get?, SymbolTable.empty]
  · intro layout after line text scanned content hknown _ hscan hstep
    exact hstep.valued_push hknown hscan

variable {layout : Layout} {program : Program}

/-- The place of a statement is between the ends of the program. -/
theorem Yields.address_mem (hyields : layout.Yields program) (hsound : layout.Sound)
    (hordered : layout.Ordered) {statement : Statement} (hstatement : statement ∈ layout.statements) :
    program.origin.toNat ≤ statement.address ∧
      statement.address ≤ program.origin.toNat + program.length ∧
      program.origin.toNat + program.length ≤ addressLimit := by
  have hlower := hordered.origin_le statement hstatement
  have hupper := hyields.end_le hsound hstatement
  obtain ⟨-, hmemory, -⟩ := bounds_of_problems hyields.problems
  rw [hyields.origin, hyields.length]
  unfold stop at hmemory ⊢
  omega

end Layout

/-- A word determines a number, as itself or as a negative one, if and only if the number is in the
range of words. -/
theorem ofInt_determines_iff (value : Int) :
    (-32768 ≤ value ∧ value ≤ 65535) ↔
      value = (BitVec.ofInt 16 value).toNat ∨ value < 0 ∧ value = (BitVec.ofInt 16 value).toInt := by
  have hnat : ((BitVec.ofInt 16 value).toNat : Int) = value % 65536 := by
    rw [BitVec.toNat_ofInt]
    exact Int.toNat_of_nonneg (Int.emod_nonneg _ (by decide))
  have hint : (BitVec.ofInt 16 value).toInt = value.bmod 65536 := BitVec.toInt_ofInt ..
  rw [hnat, hint, Int.bmod_def]
  omega

/-- An exported symbol of an accepted program has one record, whose word determines its value if and
only if that is in the range of words. The value is the address of a statement, at most one past the
end of the program, or the constant of an equation, for which there is no bound. A loaded object
text exports the value modulo the number of words. -/
theorem export_of_assemble {hint source : String} {program : Program}
    (h : assemble hint source = .ok program) {name : String} {symbol : Symbol}
    (hsome : program.symbols.get? name = some symbol) (hexported : symbol.exported = true) :
    (∀ value moves, .exported name value moves ∈ program.records ↔
        value = symbol.word ∧ moves = symbol.relocatable) ∧
      ((-32768 ≤ symbol.value ∧ symbol.value ≤ 65535) ↔
        symbol.value = symbol.word.toNat ∨
          symbol.value < 0 ∧ symbol.value = symbol.word.toInt) ∧
      ((∃ encoded ∈ program.statements, symbol.value = encoded.statement.address ∧
          program.origin.toNat ≤ encoded.statement.address ∧
          encoded.statement.address ≤ program.origin.toNat + program.length ∧
          program.origin.toNat + program.length ≤ 65536) ∨
        symbol.relocatable = false ∧
          ∃ line ∈ SourceLine.ofSource source, line.EquatesConstant symbol.value) ∧
      ∀ module, load program.objectText = .ok module →
        module.exports.get? name =
          some ⟨symbol.value % 65536, symbol.relocatable, false, true⟩ := by
  have hyields := yields_of_assemble h
  have hsound := Layout.sound_ofSource hyields.errors
  have hordered := Layout.ordered_ofSource hyields.errors
  have hlines := Layout.forall₂_laysOut_ofSource hyields.errors
  refine ⟨fun value moves => ?_, ofInt_determines_iff symbol.value, ?_, fun module hload => ?_⟩
  · rw [Program.exported_mem_records_iff]
    constructor
    · rintro ⟨own, hown, -, rfl, rfl⟩
      obtain rfl := Option.some.inj (hsome.symm.trans hown)
      exact ⟨rfl, rfl⟩
    · rintro ⟨rfl, rfl⟩
      exact ⟨symbol, hsome, hexported, rfl, rfl⟩
  · have hlocal := (hyields.exists_of_exported hsound hsome hexported).1
    rw [hyields.get?_symbols] at hsome
    obtain ⟨known, hknown, rfl⟩ := Option.map_eq_some_iff.mp hsome
    rw [Layout.marked_eq] at hlocal ⊢
    cases Layout.valued_ofSource hyields.errors hknown with
    | imported himported => cases hlocal.symm.trans himported
    | address statement hstatement hvalue =>
      obtain ⟨hlower, hupper, hmemory⟩ := hyields.address_mem hsound hordered hstatement
      have hencoded : statement.encode ((Layout.ofSource hint source).context program.symbols) ∈
          program.statements := by
        rw [hyields.statements]
        exact List.mem_map_of_mem hstatement
      have hsmall : min statement.address Text.maxInt32 = statement.address := by
        refine Nat.min_eq_left ?_
        rw [addressLimit] at hmemory
        rw [Text.maxInt32]
        omega
      rw [hsmall] at hvalue
      refine .inl ⟨_, hencoded, ?_⟩
      rw [Statement.statement_encode]
      exact ⟨hvalue, hlower, hupper, hmemory⟩
    | constant statement line hstatement hscan hequates hstays =>
      obtain ⟨own, hown, hlaid⟩ := Layout.exists_line_of_mem hlines hstatement
      obtain rfl := hlaid.eq_of_scan (congrArg Prod.snd hscan)
      exact .inr ⟨hstays, own, hown, hequates⟩
  · exact ((loadsAs_of_load h hload).exports name _).mpr ⟨symbol, hsome, hexported, rfl⟩

/-- The lines of a program that exports a constant, and a label behind its last word at the end of
memory. -/
def exportingLines (constant : String) : List String :=
  ["         .ORIG   xFFFF", "         .ENT    N,Past", "N        .EQU    " ++ constant,
    "         TRAP    x25", "Past     .BLKW   #0", "         .END"]

/-- The program that exports a negative constant, and its module. -/
def exporting : Build "main" (exportingLines "#-5") :=
  .ofLines (by decide +kernel)

/-- The record of a negative constant determines it, and a loaded module has its two's complement. -/
theorem export_exportingLines :
    ∃ program module, assemble "main" (Text.unlines (exportingLines "#-5")) = .ok program ∧
      load program.objectText = .ok module ∧
      program.symbols.get? "N" = some ⟨-5, false, false, true⟩ ∧
      .exported "N" 0xFFFB false ∈ program.records ∧ -5 = (0xFFFB : Word).toInt ∧
      module.exports.get? "N" = some ⟨65531, false, false, true⟩ := by
  have hnumber : exporting.program.symbols.get? "N" = some ⟨-5, false, false, true⟩ := by
    decide +kernel
  obtain ⟨hrecord, hdetermined, -, hexport⟩ := export_of_assemble exporting.assembled hnumber rfl
  have hvalue := (hdetermined.mp (by decide)).resolve_left (by decide)
  exact ⟨_, _, exporting.assembled, exporting.loaded, hnumber,
    (hrecord 0xFFFB false).mpr ⟨by decide, rfl⟩, hvalue.2, hexport _ exporting.loaded⟩

/-- The program that exports a constant beyond the range of words, and its module. -/
def wideExporting : Build "main" (exportingLines "#100000") :=
  .ofLines (by decide +kernel)

/-- A constant beyond the range of words is exported as another number, and a label right behind
memory as zero. -/
theorem exists_wide_export :
    ∃ program module, assemble "main" (Text.unlines (exportingLines "#100000")) = .ok program ∧
      load program.objectText = .ok module ∧
      program.symbols.get? "N" = some ⟨100000, false, false, true⟩ ∧
      program.symbols.get? "Past" = some ⟨65536, false, false, true⟩ ∧
      .exported "N" 0x86A0 false ∈ program.records ∧
      .exported "Past" 0 false ∈ program.records ∧
      module.exports.get? "N" = some ⟨34464, false, false, true⟩ ∧
      module.exports.get? "Past" = some ⟨0, false, false, true⟩ := by
  have hnumber : wideExporting.program.symbols.get? "N" = some ⟨100000, false, false, true⟩ := by
    decide +kernel
  have hlabel : wideExporting.program.symbols.get? "Past" = some ⟨65536, false, false, true⟩ := by
    decide +kernel
  have hrecords : .exported "N" 0x86A0 false ∈ wideExporting.program.records ∧
      .exported "Past" 0 false ∈ wideExporting.program.records := by
    decide +kernel
  have hexports : wideExporting.module.exports.get? "N" = some ⟨34464, false, false, true⟩ ∧
      wideExporting.module.exports.get? "Past" = some ⟨0, false, false, true⟩ := by
    decide +kernel
  exact ⟨_, _, wideExporting.assembled, wideExporting.loaded, hnumber, hlabel, hrecords.1,
    hrecords.2, hexports⟩

end PageMachine
