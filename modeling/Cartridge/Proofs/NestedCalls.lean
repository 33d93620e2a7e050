import Cartridge.Proofs.Stepping

/-!
Calls within calls.

A call leaves a word on the stack and runs the code that its symbol stands for. It has come back
when that code returns to the word, at the level that the call was made at. Code that pulls what it
has pushed cannot tell at what level it was called or what it returns to. By induction on how deep
calls nest, this holds of all that such code calls in turn.
-/

namespace Cartridge.Machine

open Asm (Line Symbol Tidy holdsAt)
open Emit (isReturn)

/-- A call that comes back from a part. -/
structure Surroundings.Returns (around : Surroundings) (part : CodePart) (word : UInt16)
    (limit : Nat) (before after : Cpu) : Prop where
  room : around.frame.used before + 2 ≤ limit
  ran : ∃ steps n inner, part.code[n]? = some (.op .rts) ∧
    Takes (around.Steps part limit) ⟨part.first, around.frame.wiring.pushWord before word⟩ steps
      ⟨n, inner⟩ ∧
    around.frame.wiring.pulled inner = word ∧ inner.s + 2 = before.s ∧
    after = { inner with s := inner.s + 2 }

/-- The stack, the code that symbols stand for, and the words that calls from there leave. -/
structure World where
  frame : Frame
  code? : Symbol → Option (List Line)
  words : Symbol → Nat → UInt16

namespace World

variable {world : World} {called : Symbol → Prop}

/-- What surrounds code whose calls nest so deep. -/
def around (world : World) : Nat → Surroundings
  | 0 => { frame := world.frame, calls := fun _ _ _ _ _ => False }
  | depth + 1 =>
    { frame := world.frame
      calls := fun symbol word limit before after => ∃ code, world.code? symbol = some code ∧
        (world.around depth).Returns (.whole code (world.words symbol)) word limit before after }

@[simp] theorem frame_around (depth : Nat) : (world.around depth).frame = world.frame := by
  cases depth <;> rfl

def call? (world : World) (fuel : Nat) : Nat → Symbol → UInt16 → Nat → Cpu → Option Cpu
  | 0, _, _, _, _ => none
  | depth + 1, symbol, word, limit, before =>
    (world.code? symbol).bind fun code =>
      if world.frame.used before + 2 ≤ limit then
        ((world.around depth).finish? (world.call? fuel depth)
          (.whole code (world.words symbol)) limit fuel
          ⟨0, world.frame.wiring.pushWord before word⟩).bind fun ⟨_, inner⟩ =>
            if world.frame.wiring.pulled inner = word ∧ inner.s + 2 = before.s then
              some { inner with s := inner.s + 2 }
            else none
      else none

theorem calls_of_call? {fuel depth : Nat} {symbol : Symbol} {word : UInt16} {limit : Nat}
    {before after : Cpu} (ran : world.call? fuel depth symbol word limit before = some after) :
    (world.around depth).calls symbol word limit before after := by
  induction depth generalizing symbol word limit before after with
  | zero => contradiction
  | succ depth ih =>
    obtain ⟨code, found, ran⟩ := Option.bind_eq_some_iff.mp ran
    refine ⟨code, found, ?_⟩
    split at ran
    next room =>
      obtain ⟨⟨n, inner⟩, finished, ran⟩ := Option.bind_eq_some_iff.mp ran
      obtain ⟨returns, steps, run⟩ :=
        Surroundings.takes_of_finish? (fun _ _ _ _ _ => ih) finished
      dsimp only at ran
      split at ran
      next back =>
        obtain rfl := Option.some.inj ran
        constructor
        · rw [frame_around]
          exact room
        · rw [frame_around]
          exact ⟨steps, n, inner, returns, run, back.1, back.2, rfl⟩
      next => contradiction
    next => contradiction

/-- All that is called pulls what it has pushed, and calls no more. -/
def TidyOn (world : World) (called : Symbol → Prop) : Prop :=
  ∀ symbol, called symbol → ∀ code, world.code? symbol = some code →
    Tidy code ∧ ∀ other, .direct .jsr other ∈ code → called other

end World

section Levels

variable {frame : Frame} {taken other bytes more : List UInt8} {held : Bool}
  {first second inner : Cpu} {limit limitOther : Nat}

theorem alike_append :
    Alike frame (taken ++ bytes) (other ++ bytes) [] held first second ↔
      Alike frame taken other bytes held first second := by
  constructor
  · rintro ⟨registers, stack, stackOther, memory⟩
    rw [List.append_nil] at stack stackOther
    exact ⟨registers, stack, stackOther, memory⟩
  · rintro ⟨registers, stack, stackOther, memory⟩
    rw [← List.append_nil (taken ++ bytes)] at stack
    rw [← List.append_nil (other ++ bytes)] at stackOther
    exact ⟨registers, stack, stackOther, memory⟩

theorem Balanced.enter (balanced : Balanced frame taken other limit limitOther)
    (bytes : List UInt8) (word wordOther : UInt16) :
    Balanced frame (taken ++ bytes ++ wordBytes word) (other ++ bytes ++ wordBytes wordOther) limit
      limitOther := by
  have same := balanced.same
  refine ⟨balanced.shallow, balanced.room, balanced.roomOther, ?_⟩
  simp only [List.length_append, wordBytes, List.length_cons, List.length_nil]
  omega

/-- Two bytes above a level nothing is left but a word. -/
theorem Held.eq_nil {word : UInt16} (held : Held frame (taken ++ wordBytes word ++ more) inner)
    (level : Held frame taken first) (shallow : frame.depth < 256) (back : inner.s + 2 = first.s) :
    more = [] := by
  have room := held.room
  rw [held.pointer, level.pointer, List.length_append, List.length_append, wordBytes] at back
  rw [List.length_append, List.length_append, wordBytes] at room
  simp only [List.length_cons, List.length_nil] at back room
  apply List.eq_nil_of_length_eq_zero
  have same : UInt8.ofNat more.length = 0 := by
    rw [UInt8.ofNat_add, UInt8.ofNat_add] at back
    grind
  have small : more.length < UInt8.size := by
    rw [UInt8.size]
    omega
  rw [← UInt8.toNat_ofNat_of_lt' small, same]
  rfl

end Levels

namespace World

variable {world : World} {called : Symbol → Prop}

/-- What is called does the same at every level, however deep its own calls nest. -/
theorem oblivious (tidy : world.TidyOn called) (clear : world.frame.Clear) (depth : Nat) :
    (world.around depth).Oblivious called := by
  induction depth with
  | zero => exact fun _ _ _ _ _ _ _ _ _ _ _ _ _ _ ran => ran.elim
  | succ depth ih =>
    rintro symbol isCalled word wordOther taken other bytes limit limitOther first second after
      balanced alike ⟨code, found, room, steps, n, inner, returns, ran, pulled, back, rfl⟩
    obtain ⟨⟨arrives, rises⟩, onward⟩ := tidy symbol isCalled code found
    rw [frame_around] at room ran pulled balanced alike
    have level := alike.used_add balanced
    have entered := alike.pushWord clear balanced room word wordOther
    have begins : AlikeAt world.frame arrives (taken ++ bytes ++ wordBytes word)
        (other ++ bytes ++ wordBytes wordOther) code ⟨0, world.frame.wiring.pushWord first word⟩
        ⟨0, world.frame.wiring.pushWord second wordOther⟩ :=
      ⟨rfl, [], 0, Nat.le_refl 0, entered, rises⟩
    obtain ⟨⟨m, innerOther⟩, ranOther, same, more, k, -, there, -⟩ := Takes.displaced
      (by rwa [frame_around]) (by rw [frame_around]; exact balanced.enter bytes word wordOther) ih
      rises onward (by rw [frame_around]; exact begins) (world.words symbol) ran
    obtain rfl : m = n := same
    have ends : code[m]?.all isReturn = true := by
      rw [show code[m]? = some (.op .rts) from returns]
      rfl
    dsimp only at there
    rw [Tidy.holdsAt_eq ⟨arrives, rises⟩ ends, frame_around] at there
    obtain rfl := there.stack.eq_nil alike.stack balanced.shallow back
    obtain ⟨-, pulledOther, below⟩ := there.pulled
    have left := alike_append.mp below
    refine ⟨{ innerOther with s := innerOther.s + 2 }, ⟨code, found, ?_, steps, m, innerOther,
      returns, ?_, ?_, ?_, rfl⟩, left⟩
    · rw [frame_around]
      omega
    · rw [frame_around]
      exact ranOther
    · rw [frame_around]
      exact pulledOther
    · exact left.stackOther.pointer.trans alike.stackOther.pointer.symm

end World

end Cartridge.Machine
