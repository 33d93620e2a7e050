import Cartridge.Proofs.Hosting

/-!
Copies that do what a call does.

A copy takes the same steps as the body at one level of the stack, and the body takes the same steps
at all levels, with a word to return to below its stack or without. Both together make of a copy
what a call would do.
-/

namespace Cartridge.Machine

open Asm (Line Symbol Tidy definedLabels holdsAt)
open Emit (Controlled bodyLabels copyIndex renameAt splice)
open Program (Body)

/-- A stack with room for a call, at the level that it is made at. -/
structure Frame.Admits (frame : Frame) (cpu : Cpu) : Prop where
  clear : frame.Clear
  room : 2 ≤ frame.depth
  shallow : frame.depth < 256
  level : cpu.s = frame.base

namespace Surroundings

/-- A body that was called, with a word left to return to. -/
def Calls (around : Surroundings) (rename : Symbol → Symbol) (code : List Line)
    (inside : Nat → UInt16) (cpu : Cpu) (word : UInt16) : Nat → State → Prop :=
  Takes ((around.relocate rename).Steps (.whole code inside) around.frame.depth)
    ⟨0, around.frame.wiring.pushWord cpu word⟩

/-- A part of the code that is run from its first line on, and leaves room for the word of a call
in its place. -/
def Splices (around : Surroundings) (copy : CodePart) (cpu : Cpu) : Nat → State → Prop :=
  Takes (around.Steps copy (around.frame.depth - 2)) ⟨copy.first, cpu⟩

/-- Processors behind a copy and before the return of the body: they agree, and if nothing is left
on the stack, the return goes back to the call and to the level that it was made at. -/
structure Meets (around : Surroundings) (cpu : Cpu) (word : UInt16) (outer inner : Cpu) : Prop where
  alike : ∃ bytes, Alike around.frame [] (wordBytes word) bytes false outer inner
  back : outer.s = cpu.s → around.frame.wiring.pulled inner = word ∧ inner.s + 2 = outer.s

/-- Part of the code that does what a body does when it is called, step for step, and comes to its
end where that would return. -/
structure Replays (around : Surroundings) (rename : Symbol → Symbol) (code : List Line)
    (inside : Nat → UInt16) (copy : CodePart) (cpu : Cpu) (word : UInt16) : Prop where
  follows : ∀ steps n inner, around.Calls rename code inside cpu word steps ⟨n, inner⟩ →
    ∃ outer, around.Splices copy cpu steps ⟨copy.first + copyIndex code n, outer⟩ ∧
      ∃ bytes, Alike around.frame [] (wordBytes word) bytes (holdsAt code n) outer inner
  leads : ∀ steps line outer, around.Splices copy cpu steps ⟨line, outer⟩ →
    ∃ fewer n inner, fewer ≤ steps ∧
      around.Calls rename code inside cpu word fewer ⟨n, inner⟩ ∧
      (∃ bytes, Alike around.frame [] (wordBytes word) bytes (holdsAt code n) outer inner) ∧
      (fewer = steps ∧ line = copy.first + copyIndex code n ∨ endsAt code n = true)
  ends : ∀ steps n inner, around.Calls rename code inside cpu word steps ⟨n, inner⟩ →
    endsAt code n = true → ∃ more outer, steps ≤ more ∧
      around.Splices copy cpu more ⟨copy.first + copy.length, outer⟩ ∧
      around.Meets cpu word outer inner
  returns : ∀ steps outer, around.Splices copy cpu steps ⟨copy.first + copy.length, outer⟩ →
    ∃ fewer n inner, fewer ≤ steps ∧
      around.Calls rename code inside cpu word fewer ⟨n, inner⟩ ∧ endsAt code n = true ∧
      around.Meets cpu word outer inner

end Surroundings

section Levels

variable {around : Surroundings} {called : Symbol → Prop} {rename : Symbol → Symbol}
  {code : List Line} {cpu outer inner : Cpu} {word : UInt16} {steps n : Nat}
  {words inside : Nat → UInt16}

theorem Frame.Admits.balanced {frame : Frame} (admits : frame.Admits cpu) (word : UInt16) :
    Balanced frame [] (wordBytes word) (frame.depth - 2) frame.depth :=
  ⟨admits.shallow, Nat.sub_le _ _, Nat.le_refl _, Nat.sub_add_cancel admits.room⟩

theorem Frame.Admits.alikeAt {frame : Frame} (admits : frame.Admits cpu)
    {arrives : Symbol → Nat → Prop} (rises : Asm.Rises arrives false 0 code 0)
    (rename : Symbol → Symbol) (word : UInt16) :
    AlikeAt (frame.relocate rename) arrives [] (wordBytes word) code ⟨0, cpu⟩
      ⟨0, frame.wiring.pushWord cpu word⟩ := by
  have entered := alike_pushWord admits.clear admits.level admits.room word
  exact ⟨rfl, [], 0, Nat.le_refl 0, alike_relocate.mpr entered, rises⟩

theorem AlikeAt.symm {frame : Frame} {arrives : Symbol → Nat → Prop} {taken other : List UInt8}
    {state counterpart : State} (alike : AlikeAt frame arrives taken other code state counterpart) :
    AlikeAt frame arrives other taken code counterpart state := by
  obtain ⟨same, bytes, k, enough, alike, rises⟩ := alike
  rw [← same] at alike rises
  exact ⟨same.symm, bytes, k, enough, alike.symm, rises⟩

variable (oblivious : around.Oblivious called) (tidy : Tidy code)
  (known : ∀ symbol, .direct .jsr symbol ∈ code → called (rename symbol))

include oblivious tidy known

/-- Code does the same with a word below its stack. -/
theorem Frame.Admits.calls (admits : around.frame.Admits cpu) (word : UInt16)
    (inside : Nat → UInt16)
    (ran : Takes ((around.relocate rename).Steps (.whole code words) (around.frame.depth - 2))
      ⟨0, cpu⟩ steps ⟨n, outer⟩) :
    ∃ inner, around.Calls rename code inside cpu word steps ⟨n, inner⟩ ∧
      ∃ bytes, Alike around.frame [] (wordBytes word) bytes (holdsAt code n) outer inner := by
  obtain ⟨arrives, rises⟩ := tidy
  have clear : (around.relocate rename).frame.Clear := clear_relocate admits.clear
  obtain ⟨⟨m, inner⟩, ranIn, same, bytes, -, -, alike, -⟩ := Takes.displaced clear
    (balanced_relocate (admits.balanced word)) (oblivious.relocate rename) rises known
    (admits.alikeAt rises rename word) inside ran
  obtain rfl : m = n := same
  exact ⟨inner, ranIn, bytes, alike_relocate.mp alike⟩

theorem Frame.Admits.takes (admits : around.frame.Admits cpu) (words : Nat → UInt16)
    (ran : around.Calls rename code inside cpu word steps ⟨n, inner⟩) :
    ∃ outer, Takes ((around.relocate rename).Steps (.whole code words) (around.frame.depth - 2))
        ⟨0, cpu⟩ steps ⟨n, outer⟩ ∧
      ∃ bytes, Alike around.frame [] (wordBytes word) bytes (holdsAt code n) outer inner := by
  obtain ⟨arrives, rises⟩ := tidy
  have clear : (around.relocate rename).frame.Clear := clear_relocate admits.clear
  obtain ⟨⟨m, outer⟩, ranOut, same, bytes, -, -, alike, -⟩ := Takes.displaced clear
    (balanced_relocate (admits.balanced word).symm) (oblivious.relocate rename) rises known
    (admits.alikeAt rises rename word).symm words ran
  obtain rfl : m = n := same
  exact ⟨outer, ranOut, bytes, (alike_relocate.mp alike).symm⟩

omit oblivious known

theorem Frame.Admits.meets (admits : around.frame.Admits cpu) (ends : endsAt code n = true)
    (alike : ∃ bytes, Alike around.frame [] (wordBytes word) bytes (holdsAt code n) outer inner) :
    around.Meets cpu word outer inner := by
  obtain ⟨bytes, alike⟩ := alike
  rw [tidy.holdsAt_eq ends] at alike
  refine ⟨⟨bytes, alike⟩, fun same => ?_⟩
  have none : bytes = [] := by
    apply List.eq_nil_of_length_eq_zero
    rw [← List.nil_append bytes, ← alike.stack.used_eq admits.shallow, Frame.used, same,
      admits.level, UInt8.sub_self]
    rfl
  subst none
  have word : Held around.frame ([] ++ wordBytes word) inner := alike.stackOther
  obtain ⟨pulled, below⟩ := word.pulled
  refine ⟨pulled, ?_⟩
  rw [same, admits.level]
  exact below.pointer.trans (UInt8.sub_zero _)

end Levels

/-- A copy in its host does what a call of the body does. -/
theorem replays_splice {around : Surroundings} {called calls : Symbol → Prop} {cpu : Cpu}
    {place : Symbol} {body : Body} {front host : List Line} (hosted : Hosted place body front host)
    (controlled : Controlled (fun _ => False) calls body) (tidy : Tidy body.code)
    (oblivious : around.Oblivious called)
    (known : ∀ symbol, .direct .jsr symbol ∈ body.code →
      called (renameAt place (bodyLabels body) symbol))
    (admits : around.frame.Admits cpu) (word : UInt16) (outside inside : Nat → UInt16) :
    around.Replays (renameAt place (bodyLabels body)) body.code inside
      (copyPart place body front host outside) cpu word := by
  refine ⟨?_, ?_, ?_, ?_⟩
  · intro steps n inner ran
    obtain ⟨outer, ranOut, alike⟩ := admits.takes oblivious tidy known _ ran
    exact ⟨outer, hosted.run ranOut, alike⟩
  · intro steps line outer ran
    obtain ⟨fewer, n, bound, ranBody, place⟩ := hosted.run_back controlled ran
    obtain ⟨inner, ranIn, alike⟩ := admits.calls oblivious tidy known word inside ranBody
    exact ⟨fewer, n, inner, bound, ranIn, alike, place.imp_right And.left⟩
  · intro steps n inner ran ends
    obtain ⟨outer, ranOut, alike⟩ := admits.takes oblivious tidy known _ ran
    obtain ⟨more, rest⟩ := hosted.ends_run ends
    exact ⟨steps + more, outer, Nat.le_add_right _ _, (hosted.run ranOut).trans rest,
      admits.meets tidy ends alike⟩
  · intro steps outer ran
    obtain ⟨fewer, n, bound, ranBody, place⟩ := hosted.run_back controlled ran
    obtain ⟨inner, ranIn, alike⟩ := admits.calls oblivious tidy known word inside ranBody
    have ends : endsAt body.code n = true := by
      rcases place with ⟨-, last⟩ | ⟨ends, -⟩
      · exact Hosted.ends_of_copyIndex_eq _ (Nat.add_left_cancel last).symm
      · exact ends
    exact ⟨fewer, n, inner, bound, ranIn, ends, admits.meets tidy ends alike⟩

end Cartridge.Machine
