import Mathlib.Logic.Function.Iterate
import PageMachine.Proofs.LifeCycle

/-!
# The states of the generator

A draw shifts the state over itself three times. Shifting alone is additive, where words are added
by exclusive or, and repeated often enough it leaves nothing; so the only word that is its own shift
is zero, and no two words become the same when they are shifted over themselves. This needs no
inverse of the three shifts, and does not depend on their distances but for that none is zero.

It follows that draws keep different states apart, and that none of them leads to zero from any
other state. A machine draws a word for each trap that asks for one and else leaves its generator
alone, so its generator does not come to zero whatever it is made to execute.
-/

namespace PageMachine

namespace Generator

section Shifting

variable {width : Nat}

/-- No two words become the same when they are added to their images under an additive map that
leaves nothing if repeated. -/
theorem injective_xor_self {shift : BitVec width → BitVec width}
    (hxor : ∀ x y, shift (x ^^^ y) = shift x ^^^ shift y) (count : Nat)
    (hzero : ∀ x, shift^[count] x = 0) : Function.Injective fun x => x ^^^ shift x := by
  intro x y h
  have hfixed : shift (x ^^^ y) = x ^^^ y := by
    apply BitVec.xor_eq_zero_iff.mp
    calc shift (x ^^^ y) ^^^ (x ^^^ y)
        = (x ^^^ shift x) ^^^ (y ^^^ shift y) := by
          rw [hxor]
          ac_rfl
      _ = 0 := BitVec.xor_eq_zero_iff.mpr h
  have hdifference : x ^^^ y = 0 := by
    rw [← hzero (x ^^^ y), Function.iterate_fixed hfixed]
  exact BitVec.xor_eq_zero_iff.mp hdifference

/-- Shifting to the left again and again shifts by a multiple. -/
theorem iterate_shiftLeft (distance count : Nat) (x : BitVec width) :
    (fun y : BitVec width => y <<< distance)^[count] x = x <<< (distance * count) := by
  induction count generalizing x with
  | zero => simp
  | succ count ih =>
    rw [Function.iterate_succ_apply, ih, ← BitVec.shiftLeft_add, Nat.mul_succ, Nat.add_comm]

/-- Shifting to the right again and again shifts by a multiple. -/
theorem iterate_ushiftRight (distance count : Nat) (x : BitVec width) :
    (fun y : BitVec width => y >>> distance)^[count] x = x >>> (distance * count) := by
  induction count generalizing x with
  | zero => simp
  | succ count ih =>
    rw [Function.iterate_succ_apply, ih, ← BitVec.shiftRight_add, Nat.mul_succ, Nat.add_comm]

/-- Shifting a word over itself to the left loses nothing. -/
theorem injective_xor_shiftLeft {distance : Nat} (h : 0 < distance) :
    Function.Injective fun x : BitVec width => x ^^^ (x <<< distance) := by
  apply injective_xor_self (fun x y => BitVec.shiftLeft_xor_distrib x y distance) width
  intro x
  rw [iterate_shiftLeft]
  exact BitVec.shiftLeft_eq_zero (Nat.le_mul_of_pos_left width h)

/-- Shifting a word over itself to the right loses nothing. -/
theorem injective_xor_ushiftRight {distance : Nat} (h : 0 < distance) :
    Function.Injective fun x : BitVec width => x ^^^ (x >>> distance) := by
  apply injective_xor_self (fun x y => BitVec.ushiftRight_xor_distrib x y distance) width
  intro x
  rw [iterate_ushiftRight]
  exact BitVec.ushiftRight_eq_zero (Nat.le_mul_of_pos_left width h)

end Shifting

/-- No two states have the same state after them. -/
theorem injective_advance : Function.Injective advance :=
  (injective_xor_shiftLeft (by decide : 0 < 17)).comp
    ((injective_xor_ushiftRight (by decide : 0 < 7)).comp
      (injective_xor_shiftLeft (by decide : 0 < 13)))

/-- No two generators have the same generator after them. -/
theorem injective_next : Function.Injective next := by
  intro generator other h
  have hstate := injective_advance (congrArg state h)
  cases generator
  cases other
  exact congrArg mk hstate

/-- The generator that stays at zero. -/
def collapsed : Generator :=
  ⟨0⟩

/-- Only the collapsed generator comes to be collapsed by draws. -/
theorem iterate_next_ne_collapsed {generator : Generator} (h : generator ≠ collapsed)
    (count : Nat) : next^[count] generator ≠ collapsed := by
  have hstays : next collapsed = collapsed := by decide
  intro hcount
  apply h
  apply injective_next.iterate count
  rw [hcount, Function.iterate_fixed hstays]

/-- No seed gives the collapsed generator. -/
theorem ofSeed_ne_collapsed (seed : BitVec 64) : ofSeed seed ≠ collapsed := by
  intro h
  have hstate : (if seed = 0 then fallback else seed) = 0 := congrArg state h
  split at hstate
  · exact absurd hstate (by decide)
  · contradiction

/-- The two kinds of draws: of a whole state, and of a word. -/
inductive Draw where
  | state
  | word

/-- The number drawn, and the generator after the draw. -/
def draw (generator : Generator) : Draw → Nat × Generator
  | .state => (generator.next.state.toNat, generator.next)
  | .word => (generator.next.word.toNat, generator.next)

/-- The numbers of draws in turn, and the generator after the last. -/
def drawAll (generator : Generator) : List Draw → List Nat × Generator
  | [] => ([], generator)
  | kind :: rest =>
      let (number, after) := generator.draw kind
      let (numbers, last) := after.drawAll rest
      (number :: numbers, last)

/-- The generator after some draws depends on how many there were, not on their kinds. -/
theorem drawAll_snd (generator : Generator) (draws : List Draw) :
    (generator.drawAll draws).2 = next^[draws.length] generator := by
  induction draws generalizing generator with
  | nil => rfl
  | cons kind rest ih => cases kind <;> exact ih generator.next

end Generator

namespace Machine

open Relation (ReflTransGen)

/-- Whether the generator of a machine comes from another by draws. -/
def DrawnFrom (generator : Generator) (machine : Machine) : Prop :=
  ∃ count, machine.generator = Generator.next^[count] generator

variable {generator : Generator}

/-- An instruction makes a draw at most. -/
theorem robust_drawnFrom : Robust (DrawnFrom generator) where
  setRegister _ _ h := h
  goTo _ h := h
  keepReturn i h := by
    rw [keepReturn]
    split <;> exact h
  storeWord _ _ h := h
  halt h := h
  draw := by
    rintro machine ⟨count, hdrawn⟩
    refine ⟨count + 1, ?_⟩
    rw [Function.iterate_succ_apply', ← hdrawn]

/-- All calls that an operator can make leave the generator one that draws lead to. -/
theorem lasting_drawnFrom : Lasting (DrawnFrom generator) where
  step := by
    intro σ _ machine console h
    have hstepped := machine.stepped_step console
    generalize machine.step console = result at hstepped
    cases hstepped with
    | stays | limited | failed => exact h
    | done done _ _ _ hrun =>
      have hdone : DrawnFrom generator done :=
        robust_drawnFrom.execute (show DrawnFrom generator machine.fetched from h) _ _ hrun
      rw [settle]
      split <;> exact hdone
  withLimit _ h := h

end Machine

/-- Whatever the seed, no draws of either kind lead to the state zero, which would never be left. No
two states have the same one after them, and generators in different states are in different states
after equally many draws. The generator of a machine does not come to zero by any calls. -/
theorem Generator.state_ne_zero_of_draws :
    (∀ (seed : BitVec 64) (draws : List Draw), ((ofSeed seed).drawAll draws).2.state ≠ 0) ∧
      Function.Injective advance ∧
      (∀ (generator other : Generator) (draws others : List Draw),
        generator.state ≠ other.state → draws.length = others.length →
          (generator.drawAll draws).2.state ≠ (other.drawAll others).2.state) ∧
      ∀ (memory : Memory) (start : Word) (seed : BitVec 64) (machine : Machine),
        Relation.ReflTransGen Machine.Call (Machine.initial memory start seed) machine →
          machine.generator.state ≠ 0 := by
  have hne : ∀ generator : Generator, generator ≠ collapsed → generator.state ≠ 0 :=
    fun generator h hzero => h (congrArg mk hzero)
  refine ⟨fun seed draws => ?_, injective_advance, fun generator other draws others h hlength => ?_,
    fun memory start seed machine hcalls => ?_⟩
  · rw [drawAll_snd]
    exact hne _ (iterate_next_ne_collapsed (ofSeed_ne_collapsed seed) _)
  · rw [drawAll_snd, drawAll_snd, hlength]
    intro hstate
    have hsame := injective_next.iterate others.length (congrArg mk hstate)
    exact h (congrArg state hsame)
  · have hdrawn : Machine.DrawnFrom (ofSeed seed) machine :=
      Machine.lasting_drawnFrom.calls hcalls ⟨0, rfl⟩
    obtain ⟨count, hgenerator⟩ := hdrawn
    rw [hgenerator]
    exact hne _ (iterate_next_ne_collapsed (ofSeed_ne_collapsed seed) count)

/-- The seeds zero and one give states that stay apart, whatever is drawn of each, and a machine
with the seed zero that has drawn a word has a state from which to draw the next. -/
theorem Generator.state_ne_zero_seeded :
    (ofSeed 0).state ≠ (ofSeed 1).state ∧
      ((ofSeed 0).drawAll [.state, .word, .word]).2.state ≠ 0 ∧
      ((ofSeed 0).drawAll [.state, .word, .word]).2.state ≠
        ((ofSeed 1).drawAll [.word, .state, .word]).2.state ∧
      ∃ machine, Relation.ReflTransGen Machine.Call
          (Machine.initial (Memory.empty.write 0 0xF043) 0 0) machine ∧
        machine.generator = (ofSeed 0).next ∧ machine.generator.state ≠ 0 := by
  obtain ⟨hzero, -, hapart, hmachine⟩ := state_ne_zero_of_draws
  have hseeds : (ofSeed 0).state ≠ (ofSeed 1).state := by decide
  have hcalls : Relation.ReflTransGen Machine.Call
      (Machine.initial (Memory.empty.write 0 0xF043) 0 0) _ :=
    Relation.ReflTransGen.refl.tail (.step (BufferConsole.ofInput []))
  exact ⟨hseeds, hzero 0 _, hapart _ _ _ _ hseeds rfl,
    _, hcalls, by decide +kernel, hmachine _ _ _ _ hcalls⟩

end PageMachine
