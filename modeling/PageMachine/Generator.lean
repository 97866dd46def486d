import PageMachine.Word

/-!
# Pseudo-random words

The generator is a state of 64 bits that is shifted over itself three times for each draw. Each
of the three steps can be undone, and zero is the only state that stays zero, so a generator that
does not begin with zero never reaches it. The seed zero therefore stands for another one.
-/

namespace PageMachine

/-- A source of pseudo-random words. -/
structure Generator where
  /-- The bits from which the next draw follows. -/
  state : BitVec 64
  deriving DecidableEq, Repr

namespace Generator

/-- The state used in place of zero. -/
def fallback : BitVec 64 :=
  0x9E3779B97F4A7C15

/-- The generator of a seed. -/
def ofSeed (seed : BitVec 64) : Generator :=
  ⟨if seed = 0 then fallback else seed⟩

/-- The state after another. -/
def advance (state : BitVec 64) : BitVec 64 :=
  let first := state ^^^ (state <<< 13)
  let second := first ^^^ (first >>> 7)
  second ^^^ (second <<< 17)

/-- The generator after a draw. -/
def next (generator : Generator) : Generator :=
  ⟨advance generator.state⟩

/-- The word drawn from a state just reached: its high bits. -/
def word (generator : Generator) : Word :=
  generator.state.extractLsb' 48 16

end Generator

end PageMachine
