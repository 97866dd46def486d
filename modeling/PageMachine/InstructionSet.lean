import PageMachine.BitRange

/-!
# The instruction set of the assembler

A definition says how one form of an instruction is written and encoded: the mnemonic, the word
with all operand fields zero, and a slot for each operand with its field, the kinds of operand
it takes and the values it holds. Several definitions may share a mnemonic. The first one that
fits the operands is used, so the order of the table matters.
-/

namespace PageMachine

/-- The kinds of operand, told apart by the first character. -/
inductive OperandKind where
  /-- A constant, written with a number sign or an x in front. -/
  | immediate
  /-- A register, written with an R in front. -/
  | register
  /-- A constant in the literal pool, written with an equals sign in front. -/
  | literal
  /-- A name. -/
  | symbol
  /-- A quoted text. -/
  | string
  deriving DecidableEq, Repr

namespace OperandKind

/-- The kind of an operand. -/
def ofText (text : List Char) : OperandKind :=
  match text.head? with
  | some '=' => .literal
  | some '#' => .immediate
  | some 'x' => .immediate
  | some 'R' => .register
  | some '"' => .string
  | _ => .symbol

/-- The name of a kind. -/
def name : OperandKind → String
  | .immediate => "immediate"
  | .register => "register"
  | .literal => "literal"
  | .symbol => "symbol"
  | .string => "string"

end OperandKind

/-- The values that a slot holds. -/
inductive SlotValues where
  /-- The two's complement numbers of the field. -/
  | signed
  /-- The numbers from zero that fit the field. -/
  | unsigned
  /-- Either reading of the field. -/
  | word
  /-- The numbers from zero that fit the given number of bits, which may be fewer than the
  field has. -/
  | narrow (bits : Nat)
  deriving DecidableEq, Repr

/-- The place of an operand in an instruction. -/
structure OperandSlot where
  /-- The bits that the operand fills. -/
  field : BitRange
  /-- The kinds of operand allowed. -/
  accepted : List OperandKind
  /-- The values allowed. -/
  values : SlotValues
  /-- Whether the operand is an address of which the field holds the page offset. -/
  pageRelative : Bool
  deriving DecidableEq, Repr

namespace OperandSlot

/-- Whether negative values are allowed. -/
def isSigned (slot : OperandSlot) : Bool :=
  match slot.values with
  | .signed | .word => true
  | .unsigned | .narrow _ => false

/-- The number of values that so many bits can hold. -/
def capacity (bits : Nat) : Int :=
  Int.ofNat (1 <<< bits)

/-- The least value allowed. -/
def minValue (slot : OperandSlot) : Int :=
  if slot.isSigned then -capacity (slot.field.width - 1) else 0

/-- The greatest value allowed. -/
def maxValue (slot : OperandSlot) : Int :=
  match slot.values with
  | .signed => capacity (slot.field.width - 1) - 1
  | .unsigned | .word => capacity slot.field.width - 1
  | .narrow bits => capacity (min bits slot.field.width) - 1

/-- Whether a value is allowed. -/
def InRange (slot : OperandSlot) (value : Int) : Prop :=
  slot.minValue ≤ value ∧ value ≤ slot.maxValue

instance (slot : OperandSlot) (value : Int) : Decidable (slot.InRange value) :=
  inferInstanceAs (Decidable (_ ∧ _))

/-- Whether a kind of operand is allowed. -/
def accepts (slot : OperandSlot) (kind : OperandKind) : Bool :=
  slot.accepted.contains kind

/-- A register number. -/
def register (field : BitRange) : OperandSlot where
  field := field
  accepted := [.register]
  values := .unsigned
  pageRelative := false

/-- A constant read as a signed number. -/
def signedConstant (field : BitRange) : OperandSlot where
  field := field
  accepted := [.immediate, .symbol]
  values := .signed
  pageRelative := false

/-- An index added to a base register. The machine reads six bits of it, whatever the field. -/
def index (field : BitRange) : OperandSlot where
  field := field
  accepted := [.immediate, .symbol]
  values := .narrow 6
  pageRelative := false

/-- The number of a trap. -/
def vector : OperandSlot where
  field := { msb := 7, lsb := 0 }
  accepted := [.immediate, .symbol]
  values := .unsigned
  pageRelative := false

/-- An address on the page of the program. -/
def page : OperandSlot where
  field := .pageOffset
  accepted := [.immediate, .symbol]
  values := .unsigned
  pageRelative := true

/-- An address on the page of the program, or a constant of the literal pool. -/
def literalPage : OperandSlot where
  field := .pageOffset
  accepted := [.immediate, .symbol, .literal]
  values := .unsigned
  pageRelative := true

/-- A whole word of data. -/
def dataWord : OperandSlot where
  field := .wholeWord
  accepted := [.immediate, .symbol]
  values := .word
  pageRelative := false

end OperandSlot

/-- One form of an instruction. -/
structure InstructionDefinition where
  /-- The name by which a program asks for it. -/
  mnemonic : String
  /-- The word with all operand fields zero. -/
  pattern : Word
  /-- The operands in the order in which they are written. -/
  operands : List OperandSlot
  deriving DecidableEq, Repr

namespace InstructionDefinition

/-- Whether a definition takes operands of the given kinds. -/
def fits (definition : InstructionDefinition) (kinds : List OperandKind) : Bool :=
  definition.operands.length == kinds.length &&
    (definition.operands.zip kinds).all fun (slot, kind) => slot.accepts kind

end InstructionDefinition

namespace InstructionSet

/-- The register that an instruction sets or stores. -/
def target : OperandSlot := .register { msb := 11, lsb := 9 }

/-- The first source or the base register. -/
def source : OperandSlot := .register { msb := 8, lsb := 6, msb_lt := BitRange.pageOffset.msb_lt }

/-- The second source register. -/
def otherSource : OperandSlot := .register { msb := 2, lsb := 0 }

/-- The second operand held in the instruction. -/
def smallConstant : OperandSlot := .signedConstant { msb := 4, lsb := 0 }

/-- All definitions, in the order in which they are tried. -/
def table : List InstructionDefinition :=
  [⟨"ADD", 0x1000, [target, source, otherSource]⟩,
    ⟨"ADD", 0x1020, [target, source, smallConstant]⟩,
    ⟨"AND", 0x5000, [target, source, otherSource]⟩,
    ⟨"AND", 0x5020, [target, source, smallConstant]⟩,
    ⟨"BRN", 0x0800, [.page]⟩,
    ⟨"BRZ", 0x0400, [.page]⟩,
    ⟨"BRP", 0x0200, [.page]⟩,
    ⟨"BRNZ", 0x0C00, [.page]⟩,
    ⟨"BRNP", 0x0A00, [.page]⟩,
    ⟨"BRZP", 0x0600, [.page]⟩,
    ⟨"BRNZP", 0x0E00, [.page]⟩,
    ⟨"DBUG", 0x8000, []⟩,
    ⟨"JSR", 0x4800, [.page]⟩,
    ⟨"JMP", 0x4000, [.page]⟩,
    ⟨"JSRR", 0xC800, [source, .index { msb := 5, lsb := 0 }]⟩,
    ⟨"JMPR", 0xC000, [source, .index { msb := 5, lsb := 0 }]⟩,
    ⟨"LD", 0x2000, [target, .literalPage]⟩,
    ⟨"LDI", 0xA000, [target, .literalPage]⟩,
    ⟨"LDR", 0x6000, [target, source, .index { msb := 5, lsb := 0 }]⟩,
    ⟨"LEA", 0xE000, [target, .literalPage]⟩,
    ⟨"NOT", 0x9000, [target, source]⟩,
    ⟨"RET", 0xD000, []⟩,
    ⟨"ST", 0x3000, [target, .page]⟩,
    ⟨"STI", 0xB000, [target, .page]⟩,
    ⟨"STR", 0x7000, [target, source, .index { msb := 6, lsb := 0 }]⟩,
    ⟨"TRAP", 0xF000, [.vector]⟩]

/-- The definition used for a mnemonic with operands of the given kinds. -/
def find? (mnemonic : String) (kinds : List OperandKind) : Option InstructionDefinition :=
  table.find? fun definition => definition.mnemonic == mnemonic && definition.fits kinds

/-- Whether any definition has the mnemonic. -/
def isMnemonic (mnemonic : String) : Bool :=
  table.any fun definition => definition.mnemonic == mnemonic

end InstructionSet

end PageMachine
