import Cartridge.Asm.Line
import Mathlib.Logic.Function.Basic
import Mathlib.Logic.Relation

/-!
The processor that runs the code.

Instructions work on registers, flags and the cells of memory. What is left to the assembler and to
the console is a parameter: the addresses of symbols, and which cell an address selects, since on
the console several addresses select the same one. Control moves between the lines of a body, where
a label stands for its line; an instruction that leaves the body has no step.
-/

namespace Cartridge.Machine

open Asm (Instruction Line Mnemonic Operand Symbol Value)

abbrev Cells := UInt16 → UInt8

structure Wiring where
  /-- The cell that an address selects. -/
  cell : UInt16 → UInt16
  address : Symbol → UInt16

structure Flags where
  carry : Bool
  zero : Bool
  interrupt : Bool
  decimal : Bool
  overflow : Bool
  negative : Bool
  deriving DecidableEq, Repr

structure Cpu where
  a : UInt8
  x : UInt8
  y : UInt8
  s : UInt8
  flags : Flags
  cells : Cells

namespace Flags

def mark (flags : Flags) (result : UInt8) : Flags :=
  { flags with zero := result == 0, negative := 0x80 ≤ result }

def byte (flags : Flags) : UInt8 :=
  let bit (flag : Bool) (weight : UInt8) := if flag then weight else 0
  bit flags.negative 0x80 + bit flags.overflow 0x40 + 0x30 + bit flags.decimal 8 +
    bit flags.interrupt 4 + bit flags.zero 2 + bit flags.carry 1

def ofByte (byte : UInt8) : Flags :=
  let bit (weight : UInt8) := byte &&& weight != 0
  { negative := bit 0x80, overflow := bit 0x40, decimal := bit 8, interrupt := bit 4,
    zero := bit 2, carry := bit 1 }

end Flags

def addBinary (first second : UInt8) (carry : Bool) : UInt8 × Bool :=
  let sum := first.toNat + second.toNat + carry.toNat
  (UInt8.ofNat sum, 0x100 ≤ sum)

/-- The sum of two bytes of digits with its low digit adjusted and the high one not yet. -/
def addLowDigits (first second : UInt8) (carry : Bool) : Nat :=
  let low := first.toNat % 16 + second.toNat % 16 + carry.toNat
  let high := first.toNat / 16 + second.toNat / 16
  if 9 < low then (high + 1) * 16 + (low + 6) % 16 else high * 16 + low

def addDecimal (first second : UInt8) (carry : Bool) : UInt8 × Bool :=
  let sum := addLowDigits first second carry
  if 0xA0 ≤ sum then (UInt8.ofNat (sum + 0x60), true) else (UInt8.ofNat sum, false)

def subtractDecimal (first second : UInt8) (carry : Bool) : UInt8 :=
  let low : Int := first.toNat % 16 - second.toNat % 16 - (!carry).toNat
  let high : Int := first.toNat / 16 - second.toNat / 16 - (low < 0 : Bool).toNat
  let digit (difference : Int) := (if difference < 0 then difference - 6 else difference) % 16
  UInt8.ofNat (digit high * 16 + digit low).toNat

namespace Cpu

def loadA (cpu : Cpu) (byte : UInt8) : Cpu :=
  { cpu with a := byte, flags := cpu.flags.mark byte }

def loadX (cpu : Cpu) (byte : UInt8) : Cpu :=
  { cpu with x := byte, flags := cpu.flags.mark byte }

def loadY (cpu : Cpu) (byte : UInt8) : Cpu :=
  { cpu with y := byte, flags := cpu.flags.mark byte }

/-- The accumulator after an addition. The zero flag is that of the binary sum, also where digits
are added. Another byte tells the sign, and the overflow that it is not the sign of the sum. -/
def sum (cpu : Cpu) (second : UInt8) (result : UInt8 × Bool) (signed : UInt8) : Cpu :=
  { cpu with
    a := result.1
    flags := { cpu.flags with
      carry := result.2
      zero := (addBinary cpu.a second cpu.flags.carry).1 == 0
      negative := 0x80 ≤ signed
      overflow := 0x80 ≤ (cpu.a ^^^ signed) &&& (second ^^^ signed) } }

def add (cpu : Cpu) (byte : UInt8) : Cpu :=
  let carry := cpu.flags.carry
  let binary := addBinary cpu.a byte carry
  cpu.sum byte (if cpu.flags.decimal then addDecimal cpu.a byte carry else binary)
    (if cpu.flags.decimal then .ofNat (addLowDigits cpu.a byte carry) else binary.1)

/-- Where digits are subtracted, all flags are those of the binary difference. -/
def subtract (cpu : Cpu) (byte : UInt8) : Cpu :=
  let carry := cpu.flags.carry
  let binary := addBinary cpu.a (~~~byte) carry
  let result := if cpu.flags.decimal then subtractDecimal cpu.a byte carry else binary.1
  cpu.sum (~~~byte) (result, binary.2) binary.1

def compare (cpu : Cpu) (register byte : UInt8) : Cpu :=
  { cpu with flags := { cpu.flags.mark (register - byte) with carry := byte ≤ register } }

def test (cpu : Cpu) (byte : UInt8) : Cpu :=
  { cpu with flags := { cpu.flags with
    zero := cpu.a &&& byte == 0
    negative := 0x80 ≤ byte
    overflow := byte &&& 0x40 != 0 } }

end Cpu

/-- Instructions that change a byte where it is. -/
def change? (flags : Flags) (byte : UInt8) : Mnemonic → Option (UInt8 × Flags)
  | .inc => some (byte + 1, flags.mark (byte + 1))
  | .dec => some (byte - 1, flags.mark (byte - 1))
  | .asl => shifted (byte + byte) (0x80 ≤ byte)
  | .lsr => shifted (byte >>> 1) (byte &&& 1 != 0)
  | .rol => shifted (byte + byte + (if flags.carry then 1 else 0)) (0x80 ≤ byte)
  | .ror => shifted (byte >>> 1 + (if flags.carry then 0x80 else 0)) (byte &&& 1 != 0)
  | _ => none
where
  shifted (result : UInt8) (carry : Bool) : Option (UInt8 × Flags) :=
    some (result, { flags.mark result with carry })

def Cpu.take? (cpu : Cpu) (byte : UInt8) : Mnemonic → Option Cpu
  | .lda => some (cpu.loadA byte)
  | .ldx => some (cpu.loadX byte)
  | .ldy => some (cpu.loadY byte)
  | .adc => some (cpu.add byte)
  | .sbc => some (cpu.subtract byte)
  | .and => some (cpu.loadA (cpu.a &&& byte))
  | .ora => some (cpu.loadA (cpu.a ||| byte))
  | .eor => some (cpu.loadA (cpu.a ^^^ byte))
  | .cmp => some (cpu.compare cpu.a byte)
  | .cpx => some (cpu.compare cpu.x byte)
  | .cpy => some (cpu.compare cpu.y byte)
  | .bit => some (cpu.test byte)
  | _ => none

def Cpu.stored? (cpu : Cpu) : Mnemonic → Option UInt8
  | .sta => some cpu.a
  | .stx => some cpu.x
  | .sty => some cpu.y
  | _ => none

/-- The address of the hardware stack at a value of its pointer. -/
def stackAddress (pointer : UInt8) : UInt16 :=
  0x100 + pointer.toUInt16

namespace Wiring

def read (wiring : Wiring) (cells : Cells) (address : UInt16) : UInt8 :=
  cells (wiring.cell address)

def write (wiring : Wiring) (cells : Cells) (address : UInt16) (byte : UInt8) : Cells :=
  Function.update cells (wiring.cell address) byte

def push (wiring : Wiring) (cpu : Cpu) (byte : UInt8) : Cpu :=
  { cpu with cells := wiring.write cpu.cells (stackAddress cpu.s) byte, s := cpu.s - 1 }

def top (wiring : Wiring) (cpu : Cpu) : UInt8 :=
  wiring.read cpu.cells (stackAddress (cpu.s + 1))

def value (wiring : Wiring) : Value → UInt16
  | .byte n => n.toUInt16
  | .word n => n
  | .symbol name => wiring.address name
  | .offset name distance => wiring.address name + distance.toUInt16
  | .lowByte name => (wiring.address name).toUInt8.toUInt16
  | .highByte name => wiring.address name >>> 8

/-- An address that an index is added to. In the zero page it stays there; a word is never taken
for an address in the zero page. -/
def indexed (wiring : Wiring) (value : Value) (index : UInt8) : UInt16 :=
  let base := wiring.value value
  match value with
  | .word _ => base + index.toUInt16
  | _ => if base < 0x100 then (base.toUInt8 + index).toUInt16 else base + index.toUInt16

def pointer (wiring : Wiring) (cells : Cells) (place : UInt8) : UInt16 :=
  (wiring.read cells place.toUInt16).toUInt16 +
    (wiring.read cells (place + 1).toUInt16).toUInt16 * 0x100

def effective? (wiring : Wiring) (cpu : Cpu) : Operand → Option UInt16
  | .addressed .direct value => some (wiring.value value)
  | .addressed .indexedX value => some (wiring.indexed value cpu.x)
  | .addressed .indexedY value => some (wiring.indexed value cpu.y)
  | .addressed .indirectX value =>
    some (wiring.pointer cpu.cells ((wiring.value value).toUInt8 + cpu.x))
  | .addressed .indirectY value =>
    some (wiring.pointer cpu.cells (wiring.value value).toUInt8 + cpu.y.toUInt16)
  | _ => none

def operand? (wiring : Wiring) (cpu : Cpu) : Operand → Option UInt8
  | .addressed .immediate value => some (wiring.value value).toUInt8
  | operand => (wiring.effective? cpu operand).map (wiring.read cpu.cells)

/-- Instructions without an operand, which change a byte in the accumulator. -/
def implied? (wiring : Wiring) (cpu : Cpu) : Mnemonic → Option Cpu
  | .pha => some (wiring.push cpu cpu.a)
  | .php => some (wiring.push cpu cpu.flags.byte)
  | .pla => some ({ cpu with s := cpu.s + 1 }.loadA (wiring.top cpu))
  | .plp => some { cpu with s := cpu.s + 1, flags := .ofByte (wiring.top cpu) }
  | .tax => some (cpu.loadX cpu.a)
  | .tay => some (cpu.loadY cpu.a)
  | .tsx => some (cpu.loadX cpu.s)
  | .txa => some (cpu.loadA cpu.x)
  | .tya => some (cpu.loadA cpu.y)
  | .txs => some { cpu with s := cpu.x }
  | .inx => some (cpu.loadX (cpu.x + 1))
  | .iny => some (cpu.loadY (cpu.y + 1))
  | .dex => some (cpu.loadX (cpu.x - 1))
  | .dey => some (cpu.loadY (cpu.y - 1))
  | .clc => some { cpu with flags := { cpu.flags with carry := false } }
  | .sec => some { cpu with flags := { cpu.flags with carry := true } }
  | .cli => some { cpu with flags := { cpu.flags with interrupt := false } }
  | .sei => some { cpu with flags := { cpu.flags with interrupt := true } }
  | .cld => some { cpu with flags := { cpu.flags with decimal := false } }
  | .sed => some { cpu with flags := { cpu.flags with decimal := true } }
  | .clv => some { cpu with flags := { cpu.flags with overflow := false } }
  | .nop => some cpu
  | .inc => none
  | .dec => none
  | mnemonic => (change? cpu.flags cpu.a mnemonic).map fun (a, flags) => { cpu with a, flags }

/-- An instruction that goes on to the next. -/
def execute? (wiring : Wiring) (instruction : Instruction) (cpu : Cpu) : Option Cpu :=
  let mnemonic := instruction.mnemonic
  match instruction.operand with
  | .implied => wiring.implied? cpu mnemonic
  | operand =>
    match cpu.stored? mnemonic with
    | some byte => do
      let address ← wiring.effective? cpu operand
      return { cpu with cells := wiring.write cpu.cells address byte }
    | none => do
      let byte ← wiring.operand? cpu operand
      match change? cpu.flags byte mnemonic with
      | some (byte, flags) =>
        let address ← wiring.effective? cpu operand
        return { cpu with flags, cells := wiring.write cpu.cells address byte }
      | none => cpu.take? byte mnemonic

def run? (wiring : Wiring) : List Line → Cpu → Option Cpu
  | [], cpu => some cpu
  | .instruction instruction :: rest, cpu => wiring.execute? instruction cpu >>= wiring.run? rest
  | _ :: rest, cpu => wiring.run? rest cpu

end Wiring

/-- Whether an instruction that may leave the line does so. -/
def Flags.leaves? (flags : Flags) : Mnemonic → Option Bool
  | .jmp => some true
  | .bcc => some !flags.carry
  | .bcs => some flags.carry
  | .bne => some !flags.zero
  | .beq => some flags.zero
  | .bpl => some !flags.negative
  | .bmi => some flags.negative
  | .bvc => some !flags.overflow
  | .bvs => some flags.overflow
  | _ => none

def lineOf? (code : List Line) (label : Symbol) : Option Nat :=
  code.findIdx? (· == .label label)

structure State where
  line : Nat
  cpu : Cpu

def Wiring.step? (wiring : Wiring) (code : List Line) (state : State) : Option State :=
  match code[state.line]? with
  | none => none
  | some (.instruction instruction) =>
    match state.cpu.flags.leaves? instruction.mnemonic, instruction.operand with
    | some true, .addressed .direct (.symbol label) =>
      (lineOf? code label).map fun line => { state with line }
    | some false, .addressed .direct (.symbol _) => some { state with line := state.line + 1 }
    | some _, _ => none
    | none, _ =>
      (wiring.execute? instruction state.cpu).map fun cpu => { line := state.line + 1, cpu }
  | some _ => some { state with line := state.line + 1 }

def Wiring.Reaches (wiring : Wiring) (code : List Line) : State → State → Prop :=
  Relation.ReflTransGen fun before after => wiring.step? code before = some after

/-- A console whose zero page shows again in page one, where the hardware stack is. -/
def Wiring.console (address : Symbol → UInt16) : Wiring :=
  { cell := fun address => if address < 0x200 then address.toUInt8.toUInt16 else address, address }

theorem Wiring.console_mirrored (address : Symbol → UInt16) (pointer : UInt8) :
    (console address).cell (stackAddress pointer) =
      (console address).cell pointer.toUInt16 := by
  have bound := pointer.toNat_lt
  have page : stackAddress pointer < 0x200 := by
    rw [UInt16.lt_iff_toNat_lt, stackAddress, UInt16.toNat_add, UInt8.toNat_toUInt16]
    simp only [UInt16.toNat_ofNat]
    omega
  have low : pointer.toUInt16 < 0x200 := by
    rw [UInt16.lt_iff_toNat_lt, UInt8.toNat_toUInt16]
    simp only [UInt16.reduceToNat]
    omega
  have folded : (stackAddress pointer).toUInt8 = pointer := by
    rw [stackAddress, UInt16.toUInt8_add, UInt8.toUInt8_toUInt16]
    exact UInt8.zero_add pointer
  simp only [console, if_pos page, if_pos low, folded, UInt8.toUInt8_toUInt16]

/-- Lines that stand in a body from a line on. -/
def LinesAt (code : List Line) (line : Nat) (lines : List Line) : Prop :=
  lines <+: code.drop line

section Running

variable {wiring : Wiring} {code : List Line} {line : Nat} {lines : List Line} {cpu after : Cpu}

theorem LinesAt.left {more : List Line} (placed : LinesAt code line (lines ++ more)) :
    LinesAt code line lines :=
  (List.prefix_append lines more).trans placed

theorem LinesAt.right {more : List Line} (placed : LinesAt code line (lines ++ more)) :
    LinesAt code (line + lines.length) more := by
  obtain ⟨rest, split⟩ := placed
  refine ⟨rest, ?_⟩
  rw [← List.drop_drop, ← split, List.append_assoc, List.drop_left]

theorem LinesAt.head {first : Line} (placed : LinesAt code line (first :: lines)) :
    code[line]? = some first := by
  obtain ⟨rest, split⟩ := placed
  rw [← Nat.add_zero line, ← List.getElem?_drop, ← split]
  rfl

theorem LinesAt.tail {first : Line} (placed : LinesAt code line (first :: lines)) :
    LinesAt code (line + 1) lines :=
  @LinesAt.right code line [first] lines placed

/-- An instruction on an operand stores a register, changes a byte of memory, or takes a byte. -/
theorem execute?_addressed_iff {mnemonic : Mnemonic} {mode : Asm.Mode} {value : Asm.Value} :
    wiring.execute? ⟨mnemonic, .addressed mode value⟩ cpu = some after ↔
      (∃ byte address, cpu.stored? mnemonic = some byte ∧
        wiring.effective? cpu (.addressed mode value) = some address ∧
        after = { cpu with cells := wiring.write cpu.cells address byte }) ∨
      (∃ byte result flags address, cpu.stored? mnemonic = none ∧
        wiring.operand? cpu (.addressed mode value) = some byte ∧
        change? cpu.flags byte mnemonic = some (result, flags) ∧
        wiring.effective? cpu (.addressed mode value) = some address ∧
        after = { cpu with flags, cells := wiring.write cpu.cells address result }) ∨
      ∃ byte, cpu.stored? mnemonic = none ∧
        wiring.operand? cpu (.addressed mode value) = some byte ∧
        change? cpu.flags byte mnemonic = none ∧ cpu.take? byte mnemonic = some after := by
  simp only [Wiring.execute?]
  cases stored : cpu.stored? mnemonic with
  | some byte => simp [Option.bind_eq_some_iff, @eq_comm _ _ after]
  | none =>
    cases wiring.operand? cpu (.addressed mode value) with
    | none => simp
    | some byte =>
      cases changed : change? cpu.flags byte mnemonic with
      | none => simp [changed]
      | some result =>
        obtain ⟨result, flags⟩ := result
        simp [changed, Option.bind_eq_some_iff, and_assoc, @eq_comm _ _ after]

theorem execute?_of_leaves {flags : Flags} {mnemonic : Mnemonic} {operand : Operand} {taken : Bool}
    (leaves : flags.leaves? mnemonic = some taken) :
    wiring.execute? ⟨mnemonic, operand⟩ cpu = none := by
  unfold Flags.leaves? at leaves
  split at leaves
  case h_10 => contradiction
  all_goals
    cases operand with
    | implied => rfl
    | addressed mode value => simp [Wiring.execute?, Cpu.stored?, change?, Cpu.take?]

theorem step?_of_execute? {instruction : Instruction}
    (found : code[line]? = some (.instruction instruction))
    (executed : wiring.execute? instruction cpu = some after) :
    wiring.step? code ⟨line, cpu⟩ = some ⟨line + 1, after⟩ := by
  have stays : cpu.flags.leaves? instruction.mnemonic = none := by
    cases leaves : cpu.flags.leaves? instruction.mnemonic with
    | none => rfl
    | some taken => simp [execute?_of_leaves leaves] at executed
  simp [Wiring.step?, found, stays, executed]

theorem step?_branch {mnemonic : Mnemonic} {label : Symbol} {taken : Bool} {target : Nat}
    (found : code[line]? = some (.direct mnemonic label))
    (leaves : cpu.flags.leaves? mnemonic = some taken) (place : lineOf? code label = some target) :
    wiring.step? code ⟨line, cpu⟩ = some ⟨if taken then target else line + 1, cpu⟩ := by
  cases taken <;> simp [Wiring.step?, found, Line.direct, Line.on, leaves, place]

theorem reaches_of_run? (placed : LinesAt code line lines)
    (ran : wiring.run? lines cpu = some after) :
    wiring.Reaches code ⟨line, cpu⟩ ⟨line + lines.length, after⟩ := by
  induction lines generalizing line cpu with
  | nil =>
    obtain rfl := Option.some.inj ran
    exact .refl
  | cons first lines ih =>
    have found := placed.head
    rw [List.length_cons, ← Nat.succ_add_eq_add_succ]
    cases first with
    | instruction instruction =>
      obtain ⟨next, executed, rest⟩ := Option.bind_eq_some_iff.mp ran
      exact (ih placed.tail rest).head (step?_of_execute? found executed)
    | _ => exact (ih placed.tail ran).head (by simp [Wiring.step?, found])

theorem lineOf?_eq_some {label : Symbol} (distinct : (Asm.definedLabels code).Nodup)
    (found : code[line]? = some (.label label)) : lineOf? code label = some line := by
  induction code generalizing line with
  | nil => contradiction
  | cons first code ih =>
    cases line with
    | zero =>
      obtain rfl := Option.some.inj found
      simp [lineOf?, List.findIdx?_cons]
    | succ line =>
      rw [List.getElem?_cons_succ] at found
      have later : label ∈ Asm.definedLabels code :=
        List.mem_filterMap.mpr ⟨_, List.mem_of_getElem? found, rfl⟩
      have other : first ≠ .label label := by
        rintro rfl
        exact (List.nodup_cons.mp distinct).1 later
      have rest := (distinct.sublist ((List.sublist_cons_self _ _).filterMap _))
      have next : code.findIdx? (· == .label label) = some line := ih rest found
      simp [lineOf?, List.findIdx?_cons, other, next]

theorem run?_append {first second : List Line} :
    wiring.run? (first ++ second) cpu = (wiring.run? first cpu).bind (wiring.run? second) := by
  induction first generalizing cpu with
  | nil => rfl
  | cons line first ih =>
    cases line with
    | instruction instruction =>
      simp only [List.cons_append, Wiring.run?, Option.bind_eq_bind]
      cases wiring.execute? instruction cpu with
      | none => rfl
      | some next => exact ih
    | _ => exact ih

end Running

end Cartridge.Machine
