import Cartridge.Proofs.Branching
import Cartridge.Proofs.Fragments
import Cartridge.Proofs.Heights

/-!
The same instruction with the stack at two levels.

Code that pulls and looks at nothing but what it has pushed itself, and otherwise keeps off the
stack, does the same wherever its stack begins. The two processors differ in the stack pointer and
in what lies below its level, and from taking the pointer until the index is given up also in that
index and in the flags that tell of it.
-/

namespace Cartridge.Machine

open Asm (Instruction Lifts Line Mnemonic Operand Symbol)

namespace Frame

variable {frame : Frame}

/-- The cells that the stack may use. -/
def OnStack (frame : Frame) (cell : UInt16) : Prop :=
  ∃ pushed < frame.depth, cell = frame.stackCell pushed

instance (frame : Frame) : DecidablePred frame.OnStack := fun cell =>
  decidable_of_iff ((List.range frame.depth).any (cell == frame.stackCell ·) = true)
    (by simp [OnStack])

end Frame

/-- The bytes on the stack from the base of a frame on. -/
structure Held (frame : Frame) (bytes : List UInt8) (cpu : Cpu) : Prop where
  pointer : cpu.s = frame.base - UInt8.ofNat bytes.length
  room : bytes.length ≤ frame.depth
  held : ∀ pushed byte, bytes[pushed]? = some byte → cpu.cells (frame.stackCell pushed) = byte

theorem Represents.holds {frame : Frame} {cells : Cells} {bytes : List UInt8} {cpu other : Cpu}
    (represents : Represents frame cells bytes cpu) (pointer : other.s = cpu.s)
    (same : other.cells = cpu.cells) : Held frame bytes other := by
  refine ⟨pointer.trans represents.pointer, represents.room, ?_⟩
  rw [same]
  exact represents.held

namespace Held

variable {frame : Frame} {bytes : List UInt8} {byte : UInt8} {cpu other : Cpu}

/-- Nothing but the stack matters here, so what it is part of is a run in its own memory. -/
theorem represents (held : Held frame bytes cpu) :
    Represents frame cpu.cells bytes { cpu with flags := { cpu.flags with decimal := false } } :=
  ⟨rfl, held.pointer, held.room, held.held, fun _ _ => rfl⟩

theorem silent (held : Held frame bytes cpu) (pointer : other.s = cpu.s)
    (same : other.cells = cpu.cells) : Held frame bytes other :=
  held.represents.holds pointer same

theorem push (held : Held frame bytes cpu) (clear : frame.Clear)
    (room : bytes.length < frame.depth) (byte : UInt8) :
    Held frame (bytes ++ [byte]) (frame.wiring.push cpu byte) :=
  (held.represents.push_of_clear clear room byte).holds rfl rfl

theorem push_elsewhere (held : Held frame bytes cpu) (room : bytes.length < frame.depth)
    (byte : UInt8) {cell : UInt16} (off : ¬frame.OnStack cell) :
    (frame.wiring.push cpu byte).cells cell = cpu.cells cell := by
  apply Wiring.write_other
  rw [held.pointer]
  exact fun same => off ⟨bytes.length, room, same⟩

theorem top_eq (held : Held frame (bytes ++ [byte]) cpu) : frame.wiring.top cpu = byte :=
  held.represents.top_eq

theorem pull (held : Held frame (bytes ++ [byte]) cpu) :
    Held frame bytes { cpu with s := cpu.s + 1 } :=
  held.represents.pull.holds rfl rfl

theorem peek (held : Held frame bytes cpu) (clear : frame.Clear) {pushed : Nat}
    (found : bytes[pushed]? = some byte) :
    frame.wiring.read cpu.cells (UInt8.ofNat (bytes.length - pushed) + cpu.s).toUInt16 = byte :=
  held.represents.peek_of_clear clear found

theorem write (held : Held frame bytes cpu) {address : UInt16}
    (off : ¬frame.OnStack (frame.wiring.cell address)) (byte : UInt8) :
    Held frame bytes { cpu with cells := frame.wiring.write cpu.cells address byte } := by
  refine ⟨held.pointer, held.room, ?_⟩
  intro pushed below found
  have bound : pushed < frame.depth :=
    Nat.lt_of_lt_of_le (List.getElem?_eq_some_iff.mp found).1 held.room
  have other : frame.stackCell pushed ≠ frame.wiring.cell address :=
    fun same => off ⟨pushed, bound, same.symm⟩
  exact (Wiring.write_other other).trans (held.held pushed below found)

end Held

/-- How many bytes are on the stack. -/
def Frame.used (frame : Frame) (cpu : Cpu) : Nat :=
  (frame.base - cpu.s).toNat

theorem Held.used_eq {frame : Frame} {bytes : List UInt8} {cpu : Cpu}
    (held : Held frame bytes cpu) (shallow : frame.depth < 256) :
    frame.used cpu = bytes.length := by
  have room := held.room
  have left : frame.base - cpu.s = UInt8.ofNat bytes.length := by
    rw [held.pointer]
    grind
  rw [Frame.used, left, UInt8.toNat_ofNat', Nat.mod_eq_of_lt (by omega)]

namespace Wiring

/-- Where a pointer lies that an operand goes through. -/
def through? (wiring : Wiring) (cpu : Cpu) : Operand → Option UInt8
  | .addressed .indirectX value => some ((wiring.value value).toUInt8 + cpu.x)
  | .addressed .indirectY value => some (wiring.value value).toUInt8
  | _ => none

/-- The addresses that an operand reads or writes. -/
def touched (wiring : Wiring) (cpu : Cpu) (operand : Operand) : List UInt16 :=
  ((wiring.through? cpu operand).toList.flatMap fun place =>
    [place.toUInt16, (place + 1).toUInt16]) ++ (wiring.effective? cpu operand).toList

end Wiring

/-- An instruction that pushes only while there is room, and that reads and writes no byte of the
stack but through the stack pointer. -/
structure Frame.Careful (frame : Frame) (limit : Nat) (held : Bool) (instruction : Instruction)
    (cpu : Cpu) : Prop where
  pushes : instruction.mnemonic = .pha ∨ instruction.mnemonic = .php → frame.used cpu < limit
  keepsOff : held = false → ∀ address ∈ frame.wiring.touched cpu instruction.operand,
    ¬frame.OnStack (frame.wiring.cell address)

instance (frame : Frame) (limit : Nat) (held : Bool) (instruction : Instruction) (cpu : Cpu) :
    Decidable (frame.Careful limit held instruction cpu) :=
  decidable_of_iff
    ((instruction.mnemonic = .pha ∨ instruction.mnemonic = .php → frame.used cpu < limit) ∧
      (held = false → ((frame.wiring.touched cpu instruction.operand).all fun address =>
        !decide (frame.OnStack (frame.wiring.cell address))) = true)) (by
    simp only [List.all_eq_true, Bool.not_eq_true', decide_eq_false_iff_not]
    exact ⟨fun ⟨pushes, keepsOff⟩ => ⟨pushes, keepsOff⟩,
      fun ⟨pushes, keepsOff⟩ => ⟨pushes, keepsOff⟩⟩)

/-- The same registers, except that while the stack pointer is held each holds its own. -/
def Cpu.Matches (held : Bool) (first second : Cpu) : Prop :=
  second.a = first.a ∧ second.y = first.y ∧
    if held then
      first.x = first.s ∧ second.x = second.s ∧ second.flags.mark 0 = first.flags.mark 0
    else second.x = first.x ∧ second.flags = first.flags

/-- Two processors that have the same bytes on top of what each was entered with, and have the same
registers and the same memory off the stack. -/
structure Alike (frame : Frame) (taken other bytes : List UInt8) (held : Bool)
    (first second : Cpu) : Prop where
  registers : first.Matches held second
  stack : Held frame (taken ++ bytes) first
  stackOther : Held frame (other ++ bytes) second
  memory : ∀ cell, ¬frame.OnStack cell → first.cells cell = second.cells cell

/-- Limits of the stack that leave as much room on top of two levels. -/
structure Balanced (frame : Frame) (taken other : List UInt8) (limit limitOther : Nat) : Prop where
  shallow : frame.depth < 256
  room : limit ≤ frame.depth
  roomOther : limitOther ≤ frame.depth
  same : limit + other.length = limitOther + taken.length

theorem Flags.mark_mark (flags : Flags) (first second : UInt8) :
    (flags.mark first).mark second = flags.mark second := rfl

section Execution

variable {wiring : Wiring} {cpu : Cpu} {mnemonic : Mnemonic} {operand : Operand}

def Mnemonic.moves : Mnemonic → Bool
  | .pha => true
  | .php => true
  | .pla => true
  | .plp => true
  | _ => false

/-- An instruction without an operand that leaves the stack alone depends on registers only. -/
theorem implied?_registers {n k : Nat} (climbs : mnemonic.climb? n = some k)
    (still : Mnemonic.moves mnemonic = false) (s : UInt8) (cells : Cells) :
    wiring.implied? { cpu with s, cells } mnemonic =
      (wiring.implied? cpu mnemonic).map fun after => { after with s, cells } := by
  cases mnemonic <;> first | rfl | contradiction

theorem take?_registers (byte : UInt8) (mnemonic : Mnemonic) (s : UInt8) (cells : Cells) :
    Cpu.take? { cpu with s, cells } byte mnemonic =
      (cpu.take? byte mnemonic).map fun after => { after with s, cells } := by
  cases mnemonic <;> rfl

theorem implied?_keeps {n k : Nat} (climbs : mnemonic.climb? n = some k)
    (still : Mnemonic.moves mnemonic = false) {after : Cpu}
    (ran : wiring.implied? cpu mnemonic = some after) :
    after.s = cpu.s ∧ after.cells = cpu.cells := by
  have same : wiring.implied? cpu mnemonic = (wiring.implied? cpu mnemonic).map fun after =>
      { after with s := cpu.s, cells := cpu.cells } :=
    implied?_registers climbs still cpu.s cpu.cells
  rw [ran] at same
  have kept := Option.some.inj same
  exact ⟨by rw [kept], by rw [kept]⟩

theorem take?_keeps {byte : UInt8} {after : Cpu} (took : cpu.take? byte mnemonic = some after) :
    after.s = cpu.s ∧ after.cells = cpu.cells := by
  have same : cpu.take? byte mnemonic = (cpu.take? byte mnemonic).map fun after =>
      { after with s := cpu.s, cells := cpu.cells } :=
    take?_registers byte mnemonic cpu.s cpu.cells
  rw [took] at same
  have kept := Option.some.inj same
  exact ⟨by rw [kept], by rw [kept]⟩

theorem effective?_registers (s : UInt8) {cells : Cells}
    (agree : ∀ address ∈ wiring.touched cpu operand,
      wiring.read cells address = wiring.read cpu.cells address) :
    wiring.effective? { cpu with s, cells } operand = wiring.effective? cpu operand := by
  have pointers : ∀ place, wiring.through? cpu operand = some place →
      wiring.pointer cells place = wiring.pointer cpu.cells place := by
    intro place found
    have low : place.toUInt16 ∈ wiring.touched cpu operand := by simp [Wiring.touched, found]
    have high : (place + 1).toUInt16 ∈ wiring.touched cpu operand := by
      simp [Wiring.touched, found]
    rw [Wiring.pointer, agree _ low, agree _ high, Wiring.pointer]
  cases operand with
  | implied => rfl
  | addressed mode value =>
    cases mode with
    | indirectX => exact congrArg some (pointers _ rfl)
    | indirectY => exact congrArg (some <| · + cpu.y.toUInt16) (pointers _ rfl)
    | _ => rfl

theorem operand?_registers (s : UInt8) {cells : Cells}
    (agree : ∀ address ∈ wiring.touched cpu operand,
      wiring.read cells address = wiring.read cpu.cells address) :
    wiring.operand? { cpu with s, cells } operand = wiring.operand? cpu operand := by
  have loaded : (wiring.effective? { cpu with s, cells } operand).map (wiring.read cells) =
      (wiring.effective? cpu operand).map (wiring.read cpu.cells) := by
    rw [effective?_registers s agree]
    apply Option.map_congr
    intro address found
    exact agree address (by simp [Wiring.touched, found])
  unfold Wiring.operand?
  split
  next => rfl
  next => exact loaded

/-- What leaves the stack pointer alone and is neither a push nor a pull keeps the height. -/
theorem climb?_of_still {n k : Nat} (climbs : mnemonic.climb? n = some k)
    (still : Mnemonic.moves mnemonic = false) : k = n := by
  cases mnemonic <;> first | exact (Option.some.inj climbs).symm | contradiction

theorem moves_of_addressed {mode : Asm.Mode} {value : Asm.Value} {after : Cpu}
    (ran : wiring.execute? ⟨mnemonic, .addressed mode value⟩ cpu = some after) :
    Mnemonic.moves mnemonic = false := by
  rcases execute?_addressed_iff.mp ran with
    ⟨byte, address, stored, -⟩ | ⟨byte, result, marked, address, -, -, changed, -⟩ |
    ⟨byte, -, -, -, took⟩ <;>
  cases mnemonic <;> first | rfl | contradiction

theorem execute?_of_isJump (jumps : mnemonic.isJump = true) :
    wiring.execute? ⟨mnemonic, operand⟩ cpu = none := by
  have leaves : ∃ taken, cpu.flags.leaves? mnemonic = some taken := by
    cases mnemonic <;> first | exact ⟨_, rfl⟩ | contradiction
  obtain ⟨taken, leaves⟩ := leaves
  exact execute?_of_leaves leaves

theorem execute?_of_transfers (transfers : mnemonic = .jsr ∨ mnemonic = .rts) :
    wiring.execute? ⟨mnemonic, operand⟩ cpu = none := by
  rw [Option.eq_none_iff_forall_not_mem]
  intro next ran
  cases operand with
  | implied => rcases transfers with rfl | rfl <;> contradiction
  | addressed mode value =>
    rcases execute?_addressed ran with
      ⟨byte, cells, stored, -⟩ | ⟨byte, result, marked, cells, changed, -⟩ | ⟨byte, took⟩ <;>
    rcases transfers with rfl | rfl <;> contradiction

theorem execute?_of_isReturn {instruction : Instruction}
    (returns : Emit.isReturn (.instruction instruction) = true) :
    wiring.execute? instruction cpu = none :=
  execute?_of_transfers (.inr (Option.some.inj (beq_iff_eq.mp returns)))

end Execution

theorem Cpu.Matches.symm {held : Bool} {first second : Cpu} (same : first.Matches held second) :
    second.Matches held first := by
  obtain ⟨a, y, rest⟩ := same
  refine ⟨a.symm, y.symm, ?_⟩
  cases held with
  | false => exact ⟨rest.1.symm, rest.2.symm⟩
  | true =>
    obtain ⟨x, other, flags⟩ := rest
    exact ⟨other, x, flags.symm⟩

theorem Balanced.symm {frame : Frame} {taken other : List UInt8} {limit limitOther : Nat}
    (balanced : Balanced frame taken other limit limitOther) :
    Balanced frame other taken limitOther limit :=
  ⟨balanced.shallow, balanced.roomOther, balanced.room, balanced.same.symm⟩

namespace Alike

variable {frame : Frame} {taken other bytes : List UInt8} {held : Bool} {first second : Cpu}
  {limit limitOther : Nat}

theorem symm (alike : Alike frame taken other bytes held first second) :
    Alike frame other taken bytes held second first :=
  ⟨alike.registers.symm, alike.stackOther, alike.stack,
    fun cell off => (alike.memory cell off).symm⟩

theorem even (alike : Alike frame taken other bytes false first second) :
    second = { first with s := second.s, cells := second.cells } := by
  obtain ⟨a, y, x, flags⟩ := alike.registers
  rw [← a, ← y, ← x, ← flags]

theorem silent (alike : Alike frame taken other bytes held first second) {next counterpart : Cpu}
    {holding : Bool} (registers : next.Matches holding counterpart) (pointer : next.s = first.s)
    (pointerOther : counterpart.s = second.s) (cells : next.cells = first.cells)
    (cellsOther : counterpart.cells = second.cells) :
    Alike frame taken other bytes holding next counterpart := by
  refine ⟨registers, alike.stack.silent pointer cells,
    alike.stackOther.silent pointerOther cellsOther, ?_⟩
  rw [cells, cellsOther]
  exact alike.memory

/-- As much room is left on both sides. -/
theorem used_add (alike : Alike frame taken other bytes held first second)
    (balanced : Balanced frame taken other limit limitOther) :
    frame.used second + limit = frame.used first + limitOther := by
  have same := balanced.same
  rw [alike.stack.used_eq balanced.shallow, alike.stackOther.used_eq balanced.shallow,
    List.length_append, List.length_append]
  omega

theorem read (alike : Alike frame taken other bytes held first second) {address : UInt16}
    (off : ¬frame.OnStack (frame.wiring.cell address)) :
    frame.wiring.read second.cells address = frame.wiring.read first.cells address :=
  (alike.memory _ off).symm

theorem write (alike : Alike frame taken other bytes held first second) {address : UInt16}
    (off : ¬frame.OnStack (frame.wiring.cell address)) (byte : UInt8) :
    Alike frame taken other bytes held
      { first with cells := frame.wiring.write first.cells address byte }
      { second with cells := frame.wiring.write second.cells address byte } := by
  refine ⟨alike.registers, alike.stack.write off byte, alike.stackOther.write off byte, ?_⟩
  intro cell outside
  simp only [Wiring.write, Function.update_apply]
  split
  next => rfl
  next => exact alike.memory cell outside

theorem push (alike : Alike frame taken other bytes false first second) (clear : frame.Clear)
    (balanced : Balanced frame taken other limit limitOther) (room : frame.used first < limit)
    (byte : UInt8) :
    Alike frame taken other (bytes ++ [byte]) false (frame.wiring.push first byte)
      (frame.wiring.push second byte) := by
  have level := alike.used_add balanced
  have bound := balanced.room
  have boundOther := balanced.roomOther
  have fresh : (taken ++ bytes).length < frame.depth := by
    rw [← alike.stack.used_eq balanced.shallow]
    omega
  have freshOther : (other ++ bytes).length < frame.depth := by
    rw [← alike.stackOther.used_eq balanced.shallow]
    omega
  refine ⟨alike.registers, ?_, ?_, ?_⟩
  · rw [← List.append_assoc]
    exact alike.stack.push clear fresh byte
  · rw [← List.append_assoc]
    exact alike.stackOther.push clear freshOther byte
  · intro cell off
    rw [alike.stack.push_elsewhere fresh byte off,
      alike.stackOther.push_elsewhere freshOther byte off]
    exact alike.memory cell off

/-- What is pulled was pushed on both sides. -/
theorem pull {byte : UInt8} (alike : Alike frame taken other (bytes ++ [byte]) false first second) :
    frame.wiring.top second = frame.wiring.top first ∧
      Alike frame taken other bytes false { first with s := first.s + 1 }
        { second with s := second.s + 1 } := by
  obtain ⟨registers, stack, stackOther, memory⟩ := alike
  rw [← List.append_assoc] at stack stackOther
  exact ⟨stackOther.top_eq.trans stack.top_eq.symm, registers, stack.pull, stackOther.pull, memory⟩

/-- A pull finds a byte, as there is one beyond what each side began with. -/
theorem exists_concat {n k : Nat} (enough : n ≤ bytes.length)
    (climbs : (if n = 0 then none else some (n - 1)) = some k) :
    ∃ below byte, bytes = below ++ [byte] ∧ k ≤ below.length := by
  split at climbs
  next => contradiction
  next full =>
    obtain rfl := Option.some.inj climbs
    rcases List.eq_nil_or_concat' bytes with rfl | ⟨below, byte, rfl⟩
    · exact absurd (Nat.le_zero.mp enough) full
    · rw [List.length_append, List.length_singleton] at enough
      exact ⟨below, byte, rfl, by omega⟩

theorem implied (alike : Alike frame taken other bytes false first second) (clear : frame.Clear)
    (balanced : Balanced frame taken other limit limitOther) {mnemonic : Mnemonic} {n k : Nat}
    (climbs : mnemonic.climb? n = some k) (enough : n ≤ bytes.length)
    (careful : frame.Careful limit false ⟨mnemonic, .implied⟩ first) {after : Cpu}
    (ran : frame.wiring.implied? first mnemonic = some after) :
    ∃ more counterpart, frame.wiring.implied? second mnemonic = some counterpart ∧
      Alike frame taken other more false after counterpart ∧ k ≤ more.length := by
  have same := alike.even
  obtain ⟨a, y, x, flags⟩ := alike.registers
  cases still : Mnemonic.moves mnemonic with
  | false =>
    obtain ⟨pointer, cells⟩ := implied?_keeps climbs still ran
    refine ⟨bytes, { after with s := second.s, cells := second.cells }, ?_, ?_, ?_⟩
    · rw [same, implied?_registers climbs still, ran]
      rfl
    · exact alike.silent ⟨rfl, rfl, rfl, rfl⟩ pointer rfl cells rfl
    · rwa [climb?_of_still climbs still]
  | true =>
    have pushed : ∀ byte : UInt8, n + 1 ≤ (bytes ++ [byte]).length := by simpa using enough
    cases mnemonic with
    | pha =>
      obtain rfl := Option.some.inj ran
      obtain rfl := Option.some.inj climbs
      refine ⟨_, frame.wiring.push second second.a, rfl, ?_, pushed first.a⟩
      rw [a]
      exact alike.push clear balanced (careful.pushes (.inl rfl)) _
    | php =>
      obtain rfl := Option.some.inj ran
      obtain rfl := Option.some.inj climbs
      refine ⟨_, frame.wiring.push second second.flags.byte, rfl, ?_, pushed first.flags.byte⟩
      rw [flags]
      exact alike.push clear balanced (careful.pushes (.inr rfl)) _
    | pla =>
      obtain rfl := Option.some.inj ran
      obtain ⟨below, byte, rfl, high⟩ := exists_concat enough climbs
      obtain ⟨top, left⟩ := alike.pull
      refine ⟨below, _, rfl, left.silent ⟨top, y, x, ?_⟩ rfl rfl rfl rfl, high⟩
      rw [top]
      exact congrArg (Flags.mark · _) flags
    | plp =>
      obtain rfl := Option.some.inj ran
      obtain ⟨below, byte, rfl, high⟩ := exists_concat enough climbs
      obtain ⟨top, left⟩ := alike.pull
      exact ⟨below, _, rfl,
        left.silent ⟨a, y, x, congrArg Flags.ofByte top⟩ rfl rfl rfl rfl, high⟩
    | _ => contradiction

theorem addressed (alike : Alike frame taken other bytes false first second) {mnemonic : Mnemonic}
    {mode : Asm.Mode} {value : Asm.Value}
    (careful : frame.Careful limit false ⟨mnemonic, .addressed mode value⟩ first) {after : Cpu}
    (ran : frame.wiring.execute? ⟨mnemonic, .addressed mode value⟩ first = some after) :
    ∃ counterpart,
      frame.wiring.execute? ⟨mnemonic, .addressed mode value⟩ second = some counterpart ∧
        Alike frame taken other bytes false after counterpart := by
  have same := alike.even
  have off := careful.keepsOff rfl
  have agree : ∀ address ∈ frame.wiring.touched first (.addressed mode value),
      frame.wiring.read second.cells address = frame.wiring.read first.cells address :=
    fun address member => alike.read (off address member)
  have effective : frame.wiring.effective? second (.addressed mode value) =
      frame.wiring.effective? first (.addressed mode value) := by
    rw [same]
    exact effective?_registers _ agree
  have operand : frame.wiring.operand? second (.addressed mode value) =
      frame.wiring.operand? first (.addressed mode value) := by
    rw [same]
    exact operand?_registers _ agree
  have stores : second.stored? mnemonic = first.stored? mnemonic := by
    rw [same]
    cases mnemonic <;> rfl
  have flags : second.flags = first.flags := by rw [same]
  have touches : ∀ {address}, frame.wiring.effective? first (.addressed mode value) = some address →
      ¬frame.OnStack (frame.wiring.cell address) :=
    fun found => off _ (by simp [Wiring.touched, found])
  rcases execute?_addressed_iff.mp ran with
    ⟨byte, address, stored, found, rfl⟩ |
    ⟨byte, result, marked, address, stored, read, changed, found, rfl⟩ |
    ⟨byte, stored, read, changed, took⟩
  · refine ⟨_, execute?_addressed_iff.mpr (.inl ⟨byte, address, ?_, ?_, rfl⟩), ?_⟩
    · rw [stores, stored]
    · rw [effective, found]
    · exact alike.write (touches found) byte
  · refine ⟨_, execute?_addressed_iff.mpr
      (.inr (.inl ⟨byte, result, marked, address, ?_, ?_, ?_, ?_, rfl⟩)), ?_⟩
    · rw [stores, stored]
    · rw [operand, read]
    · rw [flags, changed]
    · rw [effective, found]
    · obtain ⟨a, y, x, -⟩ := alike.registers
      exact (alike.write (touches found) result).silent ⟨a, y, x, rfl⟩ rfl rfl rfl rfl
  · obtain ⟨pointer, cells⟩ := take?_keeps took
    refine ⟨{ after with s := second.s, cells := second.cells },
      execute?_addressed_iff.mpr (.inr (.inr ⟨byte, ?_, ?_, ?_, ?_⟩)), ?_⟩
    · rw [stores, stored]
    · rw [operand, read]
    · rw [flags, changed]
    · rw [same, take?_registers, took]
      rfl
    · exact alike.silent ⟨rfl, rfl, rfl, rfl⟩ pointer rfl cells rfl

theorem peek (alike : Alike frame taken other bytes true first second) (clear : frame.Clear)
    {depth : UInt8} (positive : 0 < depth.toNat) (within : depth.toNat ≤ bytes.length) :
    frame.wiring.read second.cells (depth + second.x).toUInt16 =
      frame.wiring.read first.cells (depth + first.x).toUInt16 := by
  obtain ⟨⟨-, -, x, xOther, -⟩, stack, stackOther, -⟩ := alike
  -- The depth is counted from the top, so what lies below the bytes does not matter.
  have looked : ∀ (below : List UInt8) (cpu : Cpu), Held frame (below ++ bytes) cpu →
      some (frame.wiring.read cpu.cells (depth + cpu.s).toUInt16) =
        bytes[bytes.length - depth.toNat]? := by
    intro below cpu held
    have inside : bytes.length - depth.toNat < bytes.length := by omega
    have found : (below ++ bytes)[below.length + (bytes.length - depth.toNat)]? =
        some bytes[bytes.length - depth.toNat] := by
      rw [List.getElem?_append_right (by omega), Nat.add_sub_cancel_left,
        List.getElem?_eq_getElem inside]
    have distance : (below ++ bytes).length - (below.length + (bytes.length - depth.toNat)) =
        depth.toNat := by
      rw [List.length_append]
      omega
    have read := held.peek clear found
    rw [distance, UInt8.ofNat_toNat] at read
    rw [read, List.getElem?_eq_getElem inside]
  rw [x, xOther]
  exact Option.some.inj ((looked other second stackOther).trans (looked taken first stack).symm)

theorem touched_eq (alike : Alike frame taken other bytes false first second) {operand : Operand}
    (off : ∀ address ∈ frame.wiring.touched first operand,
      ¬frame.OnStack (frame.wiring.cell address)) :
    frame.wiring.touched second operand = frame.wiring.touched first operand := by
  have agree : ∀ address ∈ frame.wiring.touched first operand,
      frame.wiring.read second.cells address = frame.wiring.read first.cells address :=
    fun address member => alike.read (off address member)
  have through : frame.wiring.through? second operand = frame.wiring.through? first operand := by
    rw [alike.even]
    unfold Wiring.through?
    rfl
  have effective : frame.wiring.effective? second operand =
      frame.wiring.effective? first operand := by
    rw [alike.even]
    exact effective?_registers _ agree
  rw [Wiring.touched, through, effective, Wiring.touched]

theorem careful (alike : Alike frame taken other bytes held first second)
    (balanced : Balanced frame taken other limit limitOther) {instruction : Instruction}
    (careful : frame.Careful limit held instruction first) :
    frame.Careful limitOther held instruction second := by
  have level := alike.used_add balanced
  refine ⟨fun pushes => ?_, ?_⟩
  · have room := careful.pushes pushes
    omega
  · rintro rfl
    have off := careful.keepsOff rfl
    rw [alike.touched_eq off]
    exact off

/-- An instruction of code that pulls what it has pushed does the same at both levels. -/
theorem execute (alike : Alike frame taken other bytes held first second) (clear : frame.Clear)
    (balanced : Balanced frame taken other limit limitOther) {arrives : Symbol → Nat → Prop}
    {instruction : Instruction} {n m : Nat}
    (lifts : Lifts arrives held (.instruction instruction) n m) (enough : n ≤ bytes.length)
    (careful : frame.Careful limit held instruction first) {after : Cpu}
    (ran : frame.wiring.execute? instruction first = some after) :
    ∃ more counterpart, frame.wiring.execute? instruction second = some counterpart ∧
      Alike frame taken other more ((Line.instruction instruction).holds held) after counterpart ∧
      m ≤ more.length := by
  cases lifts with
  | climb climbs falls =>
    rw [Line.holds_of_climb? climbs]
    obtain ⟨mnemonic, operand⟩ := instruction
    cases operand with
    | implied =>
      obtain ⟨more, counterpart, ranOther, there, high⟩ :=
        alike.implied clear balanced climbs enough careful ran
      exact ⟨more, counterpart, ranOther, there, falls.trans high⟩
    | addressed mode value =>
      obtain ⟨counterpart, ranOther, there⟩ := alike.addressed careful ran
      have level := climb?_of_still climbs (moves_of_addressed ran)
      exact ⟨bytes, counterpart, ranOther, there, falls.trans (level ▸ enough)⟩
  | jump jumps =>
    rw [execute?_of_isJump jumps] at ran
    contradiction
  | ret returns =>
    rw [execute?_of_isReturn returns] at ran
    contradiction
  | take falls =>
    obtain rfl := Option.some.inj ran
    obtain ⟨a, y, -, flags⟩ := alike.registers
    have marked : second.flags.mark 0 = first.flags.mark 0 := by rw [flags]
    exact ⟨bytes, second.loadX second.s, rfl,
      alike.silent ⟨a, y, rfl, rfl, marked⟩ rfl rfl rfl rfl, falls.trans enough⟩
  | peek positive within falls =>
    obtain rfl := Option.some.inj ran
    obtain ⟨a, -, x, xOther, flags⟩ := alike.registers
    refine ⟨bytes, _, rfl, alike.silent ⟨a, ?_, x, xOther, flags⟩ rfl rfl rfl rfl,
      falls.trans enough⟩
    have same := alike.peek clear positive (within.trans enough)
    rw [← indexed_byte frame.wiring, ← indexed_byte frame.wiring] at same
    exact same
  | move falls =>
    obtain rfl := Option.some.inj ran
    obtain ⟨-, y, x, xOther, flags⟩ := alike.registers
    exact ⟨bytes, second.loadA second.y, rfl,
      alike.silent ⟨y, y, x, xOther, flags⟩ rfl rfl rfl rfl, falls.trans enough⟩
  | give falls =>
    obtain rfl := Option.some.inj ran
    obtain ⟨a, y, -, -, flags⟩ := alike.registers
    have marked : second.flags.mark second.a = first.flags.mark first.a := by
      rw [a, ← Flags.mark_mark second.flags 0, flags, Flags.mark_mark]
    exact ⟨bytes, second.loadX second.a, rfl,
      alike.silent ⟨a, y, a, marked⟩ rfl rfl rfl rfl, falls.trans enough⟩

end Alike

/-- What a call leaves on the stack for its return. -/
def wordBytes (word : UInt16) : List UInt8 :=
  [(word >>> 8).toUInt8, word.toUInt8]

theorem word_eq (word : UInt16) :
    word.toUInt8.toUInt16 + (word >>> 8).toUInt8.toUInt16 * 0x100 = word := by
  have bound := word.toNat_lt
  rw [← UInt16.toNat_inj]
  simp only [UInt16.toNat_add, UInt16.toNat_mul, UInt8.toNat_toUInt16, UInt16.toNat_toUInt8,
    UInt16.toNat_shiftRight, UInt16.reduceToNat, Nat.shiftRight_eq_div_pow, Nat.reduceMod,
    Nat.reducePow]
  omega

section Calling

variable {frame : Frame} {taken other bytes : List UInt8} {word : UInt16}
  {cpu first second : Cpu}

theorem Held.pushWord (held : Held frame bytes cpu) (clear : frame.Clear)
    (room : bytes.length + 2 ≤ frame.depth) (word : UInt16) :
    Held frame (bytes ++ wordBytes word) (frame.wiring.pushWord cpu word) ∧
      ∀ cell, ¬frame.OnStack cell →
        (frame.wiring.pushWord cpu word).cells cell = cpu.cells cell := by
  have high := held.push clear (by omega) (word >>> 8).toUInt8
  have next : (bytes ++ [(word >>> 8).toUInt8]).length < frame.depth := by
    rw [List.length_append, List.length_singleton]
    omega
  have low := high.push clear next word.toUInt8
  rw [List.append_assoc] at low
  refine ⟨low, fun cell off => ?_⟩
  rw [Wiring.pushWord, high.push_elsewhere next _ off, held.push_elsewhere (by omega) _ off]

theorem Held.pulled (held : Held frame (bytes ++ wordBytes word) cpu) :
    frame.wiring.pulled cpu = word ∧ Held frame bytes { cpu with s := cpu.s + 2 } := by
  have both : Held frame ((bytes ++ [(word >>> 8).toUInt8]) ++ [word.toUInt8]) cpu := by
    rw [List.append_assoc]
    exact held
  have below := both.pull
  have back : cpu.s + 2 = cpu.s + 1 + 1 := by rw [UInt8.add_assoc]; rfl
  refine ⟨by rw [Wiring.pulled, both.top_eq, below.top_eq, word_eq], ?_⟩
  rw [back]
  exact below.pull

/-- A subroutine is entered with what code in its place would find, and a word to return to. -/
theorem alike_pushWord (clear : frame.Clear) (level : cpu.s = frame.base) (room : 2 ≤ frame.depth)
    (word : UInt16) :
    Alike frame [] (wordBytes word) [] false cpu (frame.wiring.pushWord cpu word) := by
  have empty : Held frame [] cpu := by
    refine ⟨?_, Nat.zero_le _, by simp⟩
    rw [level]
    exact (UInt8.sub_zero frame.base).symm
  obtain ⟨pushed, elsewhere⟩ := empty.pushWord clear (by simpa using room) word
  refine ⟨⟨rfl, rfl, rfl, rfl⟩, empty, ?_, fun cell off => (elsewhere cell off).symm⟩
  rw [List.append_nil]
  exact pushed

/-- Two calls leave their own words. -/
theorem Alike.pushWord {limit limitOther : Nat}
    (alike : Alike frame taken other bytes false first second) (clear : frame.Clear)
    (balanced : Balanced frame taken other limit limitOther) (room : frame.used first + 2 ≤ limit)
    (word wordOther : UInt16) :
    Alike frame (taken ++ bytes ++ wordBytes word) (other ++ bytes ++ wordBytes wordOther) [] false
      (frame.wiring.pushWord first word) (frame.wiring.pushWord second wordOther) := by
  have level := alike.used_add balanced
  have bound := balanced.room
  have boundOther := balanced.roomOther
  have fresh : (taken ++ bytes).length + 2 ≤ frame.depth := by
    rw [← alike.stack.used_eq balanced.shallow]
    omega
  have freshOther : (other ++ bytes).length + 2 ≤ frame.depth := by
    rw [← alike.stackOther.used_eq balanced.shallow]
    omega
  obtain ⟨pushed, elsewhere⟩ := alike.stack.pushWord clear fresh word
  obtain ⟨pushedOther, elsewhereOther⟩ := alike.stackOther.pushWord clear freshOther wordOther
  refine ⟨alike.registers, ?_, ?_, ?_⟩
  · rw [List.append_nil]
    exact pushed
  · rw [List.append_nil]
    exact pushedOther
  · intro cell off
    rw [elsewhere cell off, elsewhereOther cell off]
    exact alike.memory cell off

/-- With nothing left on top of their words, two returns go back to behind their calls, and to the
levels that these were made at. -/
theorem Alike.pulled {word wordOther : UInt16}
    (alike : Alike frame (taken ++ wordBytes word) (other ++ wordBytes wordOther) [] false first
      second) :
    frame.wiring.pulled first = word ∧ frame.wiring.pulled second = wordOther ∧
      Alike frame taken other [] false { first with s := first.s + 2 }
        { second with s := second.s + 2 } := by
  obtain ⟨registers, stack, stackOther, memory⟩ := alike
  rw [List.append_nil] at stack stackOther
  obtain ⟨returns, below⟩ := stack.pulled
  obtain ⟨returnsOther, belowOther⟩ := stackOther.pulled
  refine ⟨returns, returnsOther, registers, ?_, ?_, memory⟩
  · rw [List.append_nil]
    exact below
  · rw [List.append_nil]
    exact belowOther

end Calling

end Cartridge.Machine
