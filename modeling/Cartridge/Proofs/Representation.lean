import Cartridge.Memory.Map
import Cartridge.Proofs.StackMachine

/-!
How the processor holds the state of a run.

The evaluation stack is on the hardware stack, value after value, each from its first byte on. All
other memory is as the run has it, but for the temporary and for the cells that the hardware stack
may use, which a run never touches itself. Only the cells of live bytes are determined.
-/

namespace Cartridge.Machine

open Asm (Instruction Line)

/-- Where a body runs: the stack pointer it is entered with, and how many bytes it may push. -/
structure Frame where
  wiring : Wiring
  base : UInt8
  depth : Nat

namespace Frame

def stackCell (frame : Frame) (pushed : Nat) : UInt16 :=
  frame.wiring.cell (stackAddress (frame.base - UInt8.ofNat pushed))

def temporaryCell (frame : Frame) : UInt16 :=
  frame.wiring.cell (frame.wiring.address (Memory.temporary 0))

/-- The cells that the code uses for itself. -/
def Reserved (frame : Frame) (cell : UInt16) : Prop :=
  cell = frame.temporaryCell ∨ ∃ pushed < frame.depth, cell = frame.stackCell pushed

instance (frame : Frame) : DecidablePred frame.Reserved := fun cell =>
  decidable_of_iff
    (cell = frame.temporaryCell ∨
      (List.range frame.depth).any (cell == frame.stackCell ·) = true)
    (by simp [Reserved])

/-- A hardware stack of distinct cells that can be read through the zero page. -/
structure Clear (frame : Frame) : Prop where
  mirrored : ∀ pointer : UInt8,
    frame.wiring.cell (stackAddress pointer) = frame.wiring.cell pointer.toUInt16
  apart : ∀ first < frame.depth, ∀ second < frame.depth,
    frame.stackCell first = frame.stackCell second → first = second

structure ClearOfTemporary (frame : Frame) : Prop extends frame.Clear where
  temporary : ∀ pushed < frame.depth, frame.stackCell pushed ≠ frame.temporaryCell

end Frame

/-- The bytes of an evaluation stack in the order in which they are pushed. -/
def stackBytes : List Bytes → List UInt8
  | [] => []
  | value :: stack => stackBytes stack ++ value

/-- A processor that holds the bytes of a stack and otherwise the memory of a run. -/
structure Represents (frame : Frame) (cells : Cells) (bytes : List UInt8) (cpu : Cpu) : Prop where
  binary : cpu.flags.decimal = false
  pointer : cpu.s = frame.base - UInt8.ofNat bytes.length
  room : bytes.length ≤ frame.depth
  held : ∀ pushed byte, bytes[pushed]? = some byte → cpu.cells (frame.stackCell pushed) = byte
  agrees : ∀ cell, ¬frame.Reserved cell → cpu.cells cell = cells cell

theorem Wiring.write_other {wiring : Wiring} {cells : Cells} {address cell : UInt16} {byte : UInt8}
    (other : cell ≠ wiring.cell address) : wiring.write cells address byte cell = cells cell := by
  rw [Wiring.write, Function.update_of_ne other]

namespace Represents

variable {frame : Frame} {cells : Cells} {bytes : List UInt8} {cpu : Cpu}

theorem silent (represents : Represents frame cells bytes cpu) {after : Cpu}
    (same : after.cells = cpu.cells) (pointer : after.s = cpu.s)
    (binary : after.flags.decimal = cpu.flags.decimal) : Represents frame cells bytes after := by
  refine ⟨binary.trans represents.binary, pointer.trans represents.pointer, represents.room, ?_, ?_⟩
  · rw [same]
    exact represents.held
  · rw [same]
    exact represents.agrees

theorem read (represents : Represents frame cells bytes cpu) {address : UInt16}
    (free : ¬frame.Reserved (frame.wiring.cell address)) :
    frame.wiring.read cpu.cells address = frame.wiring.read cells address :=
  represents.agrees _ free

theorem write (represents : Represents frame cells bytes cpu) {address : UInt16}
    (free : ¬frame.Reserved (frame.wiring.cell address)) (byte : UInt8) :
    Represents frame (frame.wiring.write cells address byte) bytes
      { cpu with cells := frame.wiring.write cpu.cells address byte } := by
  refine ⟨represents.binary, represents.pointer, represents.room, ?_, ?_⟩
  · intro pushed held found
    have bound : pushed < frame.depth :=
      Nat.lt_of_lt_of_le (List.getElem?_eq_some_iff.mp found).1 represents.room
    have other : frame.stackCell pushed ≠ frame.wiring.cell address :=
      fun same => free (.inr ⟨pushed, bound, same.symm⟩)
    exact (Wiring.write_other other).trans (represents.held pushed held found)
  · intro cell outside
    simp only [Wiring.write, Function.update_apply]
    split
    next => rfl
    next => exact represents.agrees cell outside

theorem writeTemporary (represents : Represents frame cells bytes cpu)
    (sound : frame.ClearOfTemporary) (byte : UInt8) :
    Represents frame cells bytes
      { cpu with cells :=
          frame.wiring.write cpu.cells (frame.wiring.address (Memory.temporary 0)) byte } := by
  refine ⟨represents.binary, represents.pointer, represents.room, ?_, ?_⟩
  · intro pushed held found
    have bound : pushed < frame.depth :=
      Nat.lt_of_lt_of_le (List.getElem?_eq_some_iff.mp found).1 represents.room
    have other := sound.temporary pushed bound
    exact (Wiring.write_other other).trans (represents.held pushed held found)
  · intro cell outside
    have other : cell ≠ frame.temporaryCell := fun same => outside (.inl same)
    exact (Wiring.write_other other).trans (represents.agrees cell outside)

theorem push_of_clear (represents : Represents frame cells bytes cpu) (clear : frame.Clear)
    (room : bytes.length < frame.depth) (byte : UInt8) :
    Represents frame cells (bytes ++ [byte]) (frame.wiring.push cpu byte) := by
  have cell : frame.wiring.cell (stackAddress cpu.s) = frame.stackCell bytes.length := by
    rw [Frame.stackCell, represents.pointer]
  refine ⟨represents.binary, ?_, ?_, ?_, ?_⟩
  · simp only [Wiring.push, represents.pointer, List.length_append, List.length_singleton,
      UInt8.ofNat_add]
    grind
  · rw [List.length_append, List.length_singleton]
    exact room
  · intro pushed held found
    simp only [Wiring.push, Wiring.write, cell]
    rcases Nat.lt_trichotomy pushed bytes.length with before | same | after
    · rw [List.getElem?_append_left before] at found
      have other : frame.stackCell pushed ≠ frame.stackCell bytes.length := fun same =>
        Nat.ne_of_lt before (clear.apart _ (Nat.lt_trans before room) _ room same)
      rw [Function.update_of_ne other]
      exact represents.held pushed held found
    · subst same
      rw [Function.update_self]
      simpa using found
    · have bound := (List.getElem?_eq_some_iff.mp found).1
      rw [List.length_append, List.length_singleton] at bound
      omega
  · intro other outside
    have free : other ≠ frame.stackCell bytes.length := fun same =>
      outside (.inr ⟨_, room, same⟩)
    simp only [Wiring.push, Wiring.write, cell]
    rw [Function.update_of_ne free]
    exact represents.agrees other outside

theorem push (represents : Represents frame cells bytes cpu) (sound : frame.ClearOfTemporary)
    (room : bytes.length < frame.depth) (byte : UInt8) :
    Represents frame cells (bytes ++ [byte]) (frame.wiring.push cpu byte) :=
  represents.push_of_clear sound.toClear room byte

theorem top_eq {byte : UInt8} (represents : Represents frame cells (bytes ++ [byte]) cpu) :
    frame.wiring.top cpu = byte := by
  have pointer : cpu.s + 1 = frame.base - UInt8.ofNat bytes.length := by
    rw [represents.pointer, List.length_append, List.length_singleton, UInt8.ofNat_add]
    grind
  have held := represents.held bytes.length byte (by simp)
  rwa [Wiring.top, Wiring.read, pointer]

theorem room_below {byte : UInt8} (represents : Represents frame cells (bytes ++ [byte]) cpu) :
    bytes.length < frame.depth := by
  have room := represents.room
  rwa [List.length_append, List.length_singleton] at room

theorem pull {byte : UInt8} (represents : Represents frame cells (bytes ++ [byte]) cpu) :
    Represents frame cells bytes { cpu with s := cpu.s + 1 } := by
  refine ⟨represents.binary, ?_, Nat.le_of_lt represents.room_below, ?_, represents.agrees⟩
  · simp only [represents.pointer, List.length_append, List.length_singleton, UInt8.ofNat_add]
    grind
  · intro pushed held found
    have bound := (List.getElem?_eq_some_iff.mp found).1
    exact represents.held pushed held (by rwa [List.getElem?_append_left bound])

theorem peek_of_clear (represents : Represents frame cells bytes cpu) (clear : frame.Clear)
    {pushed : Nat} {byte : UInt8} (found : bytes[pushed]? = some byte) :
    frame.wiring.read cpu.cells (UInt8.ofNat (bytes.length - pushed) + cpu.s).toUInt16 = byte := by
  have bound := (List.getElem?_eq_some_iff.mp found).1
  have pointer : UInt8.ofNat (bytes.length - pushed) + cpu.s =
      frame.base - UInt8.ofNat pushed := by
    obtain ⟨more, split⟩ := Nat.exists_eq_add_of_le (Nat.le_of_lt bound)
    rw [represents.pointer, split, Nat.add_sub_cancel_left, UInt8.ofNat_add]
    grind
  rw [Wiring.read, pointer, ← clear.mirrored]
  exact represents.held pushed byte found

theorem peek (represents : Represents frame cells bytes cpu) (sound : frame.ClearOfTemporary)
    {pushed : Nat} {byte : UInt8} (found : bytes[pushed]? = some byte) :
    frame.wiring.read cpu.cells (UInt8.ofNat (bytes.length - pushed) + cpu.s).toUInt16 = byte :=
  represents.peek_of_clear sound.toClear found

end Represents

end Cartridge.Machine
