import Cartridge.Proofs.Lowering
import Cartridge.Proofs.Processor

/-!
What the instructions of a subroutine mean.

Values are lists of bytes on an evaluation stack of their own. Slots are bytes of memory at the
addresses they were given, and an instance field is reached through an address in the zero page, to
which its offset is added without leaving it. A store is only defined on a value of the size it
stores, and a byte operation only on a byte, so a run that is defined uses its values as they are.
-/

namespace Cartridge.Machine

open Emit (Site)

/-- A value, from its first byte to its last. -/
abbrev Bytes := List UInt8

structure Config where
  index : Nat
  /-- The evaluation stack, topmost first. -/
  stack : List Bytes
  cells : Cells

inductive Outcome where
  | goesOn (config : Config)
  | returns (result : Bytes) (config : Config)

structure Transition where
  /-- The addresses of the bytes that are read or written. -/
  touched : List UInt16 := []
  outcome : Outcome

def slotSpan (address : UInt16) (size : Nat) : List UInt16 :=
  (List.range size).map fun k => address + UInt16.ofNat k

/-- The addresses of bytes at an offset from a pointer, which stay in the zero page. -/
def pageSpan (pointer : UInt8) (offset size : Nat) : List UInt16 :=
  (List.range size).map fun k => (pointer + UInt8.ofNat (offset + k)).toUInt16

namespace Wiring

def readAll (wiring : Wiring) (cells : Cells) (span : List UInt16) : Bytes :=
  span.map (wiring.read cells)

def writeAll (wiring : Wiring) (cells : Cells) : List UInt16 → Bytes → Cells
  | address :: span, byte :: value => wiring.write (wiring.writeAll cells span value) address byte
  | _, _ => cells

def clear (wiring : Wiring) (cells : Cells) (span : List UInt16) : Cells :=
  span.foldl (fun cells address => wiring.write cells address 0) cells

end Wiring

def pop? : List Bytes → Option (Bytes × List Bytes)
  | [] => none
  | value :: stack => some (value, stack)

def popByte? : List Bytes → Option (UInt8 × List Bytes)
  | [byte] :: stack => some (byte, stack)
  | _ => none

namespace Config

def goOn (config : Config) (stack : List Bytes) : Transition :=
  { outcome := .goesOn { config with index := config.index + 1, stack } }

def goTo (config : Config) (target : Nat) (stack : List Bytes) : Transition :=
  { outcome := .goesOn { config with index := target, stack } }

def read (config : Config) (wiring : Wiring) (span : List UInt16) (stack : List Bytes) :
    Transition :=
  { config.goOn (wiring.readAll config.cells span :: stack) with touched := span }

def write? (config : Config) (wiring : Wiring) (span : List UInt16) (value : Bytes)
    (stack : List Bytes) : Option Transition :=
  if value.length = span.length then
    some { { config with cells := wiring.writeAll config.cells span value }.goOn stack with
      touched := span }
  else none

def combine? (config : Config) (operation : UInt8 → UInt8 → UInt8) : Option Transition := do
  let (second, stack) ← popByte? config.stack
  let (first, stack) ← popByte? stack
  return config.goOn ([operation first second] :: stack)

def branchOn? (config : Config) (isTaken : UInt8 → Bool) (target : Nat) : Option Transition := do
  let (byte, stack) ← popByte? config.stack
  return if isTaken byte then config.goTo target stack else config.goOn stack

def load? (config : Config) (wiring : Wiring) (site : Site) (operand : Code.Operand) :
    Option Transition := do
  let (allocation, type) ← site.slot? operand
  return config.read wiring (slotSpan allocation.address type.size) config.stack

def store? (config : Config) (wiring : Wiring) (site : Site) (operand : Code.Operand) :
    Option Transition := do
  let (allocation, type) ← site.slot? operand
  let (value, stack) ← pop? config.stack
  config.write? wiring (slotSpan allocation.address type.size) value stack

end Config

/-- What an instruction does, where it is defined. -/
def perform? (wiring : Wiring) (site : Site) (config : Config) (instruction : Code.Instruction) :
    Option Transition :=
  match instruction.opcode, instruction.operand with
  | .nop, _ => some (config.goOn config.stack)
  | .loadConstant, .constant value =>
    some (config.goOn ([UInt8.ofNat value.toNat] :: config.stack))
  | .loadLocal, operand => config.load? wiring site operand
  | .loadArgument, operand => config.load? wiring site operand
  | .loadStaticField, operand => config.load? wiring site operand
  | .storeLocal, operand => config.store? wiring site operand
  | .storeArgument, operand => config.store? wiring site operand
  | .storeStaticField, operand => config.store? wiring site operand
  | .loadStaticFieldAddress, operand => do
    let (allocation, _) ← site.slot? operand
    return config.goOn ([allocation.address.toUInt8] :: config.stack)
  | .loadField, operand => do
    let (type, offset) ← site.member? operand
    let (pointer, stack) ← popByte? config.stack
    return config.read wiring (pageSpan pointer offset type.size) stack
  | .loadFieldAddress, operand => do
    let (_, offset) ← site.member? operand
    let (pointer, stack) ← popByte? config.stack
    return config.goOn ([pointer + UInt8.ofNat offset] :: stack)
  | .storeField, operand => do
    let (type, offset) ← site.member? operand
    let (value, stack) ← pop? config.stack
    let (pointer, stack) ← popByte? stack
    config.write? wiring (pageSpan pointer offset type.size) value stack
  | .initObject, .type type => do
    let (pointer, stack) ← popByte? config.stack
    let span := pageSpan pointer 0 type.size
    return { { config with cells := wiring.clear config.cells span }.goOn stack with
      touched := span }
  | .add, _ => config.combine? (· + ·)
  | .subtract, _ => config.combine? (· - ·)
  | .compareGreater, _ => config.combine? fun first second => if second < first then 1 else 0
  | .compareEqual, _ => config.combine? fun first second => if first = second then 1 else 0
  | .compareLess, _ => config.combine? fun first second => if first < second then 1 else 0
  | .convert, _ => do
    let (byte, stack) ← popByte? config.stack
    return config.goOn ([byte] :: stack)
  | .duplicate, _ => do
    let (value, stack) ← pop? config.stack
    return config.goOn (value :: value :: stack)
  | .pop, _ => do
    let (_, stack) ← pop? config.stack
    return config.goOn stack
  | .branch, .target target => some (config.goTo target config.stack)
  | .branchIfTrue, .target target => config.branchOn? (· != 0) target
  | .branchIfFalse, .target target => config.branchOn? (· == 0) target
  | .ret, _ =>
    if site.subroutine.returns.size = 0 then some { outcome := .returns [] config }
    else do
      let (byte, stack) ← popByte? config.stack
      return { outcome := .returns [byte] { config with stack } }
  | _, _ => none

def evaluate? (wiring : Wiring) (site : Site) (config : Config) : Option Transition := do
  perform? wiring site config (← site.subroutine.instructions[config.index]?)

theorem pop?_eq_some {stack : List Bytes} {popped : Bytes × List Bytes} :
    pop? stack = some popped ↔ stack = popped.1 :: popped.2 := by
  cases stack with
  | nil => simp [pop?]
  | cons value stack =>
    obtain ⟨first, rest⟩ := popped
    simp [pop?]

theorem popByte?_eq_some {stack : List Bytes} {popped : UInt8 × List Bytes} :
    popByte? stack = some popped ↔ stack = [popped.1] :: popped.2 := by
  obtain ⟨byte, rest⟩ := popped
  unfold popByte?
  split
  next => simp
  next other =>
    simp only [reduceCtorEq, false_iff]
    rintro rfl
    exact other byte rest rfl

theorem slotSpan_length (address : UInt16) (size : Nat) :
    (slotSpan address size).length = size := by
  simp [slotSpan]

theorem pageSpan_length (pointer : UInt8) (offset size : Nat) :
    (pageSpan pointer offset size).length = size := by
  simp [pageSpan]

theorem readAll_length (wiring : Wiring) (cells : Cells) (span : List UInt16) :
    (wiring.readAll cells span).length = span.length :=
  List.length_map _

/-- The last byte of a value may be written before the others. -/
theorem writeAll_concat {wiring : Wiring} {cells : Cells} {span : List UInt16} {value : Bytes}
    (sized : value.length = span.length) (address : UInt16) (byte : UInt8) :
    wiring.writeAll cells (span ++ [address]) (value ++ [byte]) =
      wiring.writeAll (wiring.write cells address byte) span value := by
  induction span generalizing value with
  | nil =>
    obtain rfl := List.eq_nil_of_length_eq_zero sized
    rfl
  | cons first span ih =>
    cases value with
    | nil => contradiction
    | cons head value =>
      have shorter : value.length = span.length := Nat.succ.inj sized
      simp only [List.cons_append, Wiring.writeAll, ih shorter]

section Performing

variable {wiring : Wiring} {site : Site} {config next : Config} {touched : List UInt16}

theorem goOn_eq {stack : List Bytes}
    (performed : some (config.goOn stack) = some ⟨touched, .goesOn next⟩) :
    touched = [] ∧ next = { config with index := config.index + 1, stack } := by
  cases performed
  exact ⟨rfl, rfl⟩

theorem goTo_eq {target : Nat} {stack : List Bytes}
    (performed : some (config.goTo target stack) = some ⟨touched, .goesOn next⟩) :
    touched = [] ∧ next = { config with index := target, stack } := by
  cases performed
  exact ⟨rfl, rfl⟩

theorem read_eq {span : List UInt16} {stack : List Bytes}
    (performed : some (config.read wiring span stack) = some ⟨touched, .goesOn next⟩) :
    touched = span ∧ next =
      { config with
        index := config.index + 1
        stack := wiring.readAll config.cells span :: stack } := by
  cases performed
  exact ⟨rfl, rfl⟩

theorem write?_eq {span : List UInt16} {value : Bytes} {stack : List Bytes}
    (performed : config.write? wiring span value stack = some ⟨touched, .goesOn next⟩) :
    value.length = span.length ∧ touched = span ∧ next =
      { config with
        index := config.index + 1
        stack
        cells := wiring.writeAll config.cells span value } := by
  unfold Config.write? at performed
  split at performed
  next sized =>
    cases performed
    exact ⟨sized, rfl, rfl⟩
  next => contradiction

theorem load?_eq {operand : Code.Operand}
    (performed : config.load? wiring site operand = some ⟨touched, .goesOn next⟩) :
    ∃ allocation type, site.slot? operand = some (allocation, type) ∧
      touched = slotSpan allocation.address type.size ∧ next =
        { config with
          index := config.index + 1
          stack := wiring.readAll config.cells (slotSpan allocation.address type.size) ::
            config.stack } := by
  obtain ⟨⟨allocation, type⟩, slot, made⟩ := Option.bind_eq_some_iff.mp performed
  exact ⟨allocation, type, slot, read_eq made⟩

theorem store?_eq {operand : Code.Operand}
    (performed : config.store? wiring site operand = some ⟨touched, .goesOn next⟩) :
    ∃ allocation type value stack, site.slot? operand = some (allocation, type) ∧
      config.stack = value :: stack ∧ value.length = type.size ∧
      touched = slotSpan allocation.address type.size ∧ next =
        { config with
          index := config.index + 1
          stack
          cells :=
            wiring.writeAll config.cells (slotSpan allocation.address type.size) value } := by
  obtain ⟨⟨allocation, type⟩, slot, rest⟩ := Option.bind_eq_some_iff.mp performed
  obtain ⟨⟨value, stack⟩, popped, written⟩ := Option.bind_eq_some_iff.mp rest
  obtain ⟨sized, spans, made⟩ := write?_eq written
  rw [slotSpan_length] at sized
  exact ⟨allocation, type, value, stack, slot, pop?_eq_some.mp popped, sized, spans, made⟩

theorem combine?_eq {operation : UInt8 → UInt8 → UInt8}
    (performed : config.combine? operation = some ⟨touched, .goesOn next⟩) :
    ∃ first second stack, config.stack = [second] :: [first] :: stack ∧ touched = [] ∧ next =
      { config with
        index := config.index + 1
        stack := [operation first second] :: stack } := by
  obtain ⟨⟨second, below⟩, popped, rest⟩ := Option.bind_eq_some_iff.mp performed
  obtain ⟨⟨first, stack⟩, poppedNext, made⟩ := Option.bind_eq_some_iff.mp rest
  have top := popByte?_eq_some.mp popped
  rw [popByte?_eq_some.mp poppedNext] at top
  exact ⟨first, second, stack, top, goOn_eq made⟩

theorem branchOn?_eq {isTaken : UInt8 → Bool} {target : Nat}
    (performed : config.branchOn? isTaken target = some ⟨touched, .goesOn next⟩) :
    ∃ byte stack, config.stack = [byte] :: stack ∧ touched = [] ∧ next =
      { config with index := if isTaken byte then target else config.index + 1, stack } := by
  obtain ⟨⟨byte, stack⟩, popped, made⟩ := Option.bind_eq_some_iff.mp performed
  refine ⟨byte, stack, popByte?_eq_some.mp popped, ?_⟩
  cases taken : isTaken byte with
  | false =>
    simp only [taken] at made
    exact goOn_eq made
  | true =>
    simp only [taken] at made
    exact goTo_eq made

theorem perform?_load {opcode : Code.Opcode} {operand : Code.Operand}
    (loads : opcode ∈ [Code.Opcode.loadLocal, .loadArgument, .loadStaticField]) :
    perform? wiring site config ⟨opcode, operand⟩ = config.load? wiring site operand := by
  simp only [List.mem_cons, List.not_mem_nil, or_false] at loads
  rcases loads with rfl | rfl | rfl <;> rfl

theorem perform?_store {opcode : Code.Opcode} {operand : Code.Operand}
    (stores : opcode ∈ [Code.Opcode.storeLocal, .storeArgument, .storeStaticField]) :
    perform? wiring site config ⟨opcode, operand⟩ = config.store? wiring site operand := by
  simp only [List.mem_cons, List.not_mem_nil, or_false] at stores
  rcases stores with rfl | rfl | rfl <;> rfl

theorem staticAddress_eq {operand : Code.Operand}
    (performed : perform? wiring site config ⟨.loadStaticFieldAddress, operand⟩ =
      some ⟨touched, .goesOn next⟩) :
    ∃ allocation type, site.slot? operand = some (allocation, type) ∧ touched = [] ∧ next =
      { config with
        index := config.index + 1
        stack := [allocation.address.toUInt8] :: config.stack } := by
  obtain ⟨⟨allocation, type⟩, slot, made⟩ := Option.bind_eq_some_iff.mp performed
  exact ⟨allocation, type, slot, goOn_eq made⟩

theorem loadField_eq {operand : Code.Operand}
    (performed : perform? wiring site config ⟨.loadField, operand⟩ =
      some ⟨touched, .goesOn next⟩) :
    ∃ type offset pointer stack, site.member? operand = some (type, offset) ∧
      config.stack = [pointer] :: stack ∧ touched = pageSpan pointer offset type.size ∧ next =
        { config with
          index := config.index + 1
          stack := wiring.readAll config.cells (pageSpan pointer offset type.size) :: stack } := by
  obtain ⟨⟨type, offset⟩, member, rest⟩ := Option.bind_eq_some_iff.mp performed
  obtain ⟨⟨pointer, stack⟩, popped, made⟩ := Option.bind_eq_some_iff.mp rest
  exact ⟨type, offset, pointer, stack, member, popByte?_eq_some.mp popped, read_eq made⟩

theorem fieldAddress_eq {operand : Code.Operand}
    (performed : perform? wiring site config ⟨.loadFieldAddress, operand⟩ =
      some ⟨touched, .goesOn next⟩) :
    ∃ type offset pointer stack, site.member? operand = some (type, offset) ∧
      config.stack = [pointer] :: stack ∧ touched = [] ∧ next =
        { config with
          index := config.index + 1
          stack := [pointer + UInt8.ofNat offset] :: stack } := by
  obtain ⟨⟨type, offset⟩, member, rest⟩ := Option.bind_eq_some_iff.mp performed
  obtain ⟨⟨pointer, stack⟩, popped, made⟩ := Option.bind_eq_some_iff.mp rest
  exact ⟨type, offset, pointer, stack, member, popByte?_eq_some.mp popped, goOn_eq made⟩

theorem storeField_eq {operand : Code.Operand}
    (performed : perform? wiring site config ⟨.storeField, operand⟩ =
      some ⟨touched, .goesOn next⟩) :
    ∃ type offset value pointer stack, site.member? operand = some (type, offset) ∧
      config.stack = value :: [pointer] :: stack ∧ value.length = type.size ∧
      touched = pageSpan pointer offset type.size ∧ next =
        { config with
          index := config.index + 1
          stack
          cells := wiring.writeAll config.cells (pageSpan pointer offset type.size) value } := by
  obtain ⟨⟨type, offset⟩, member, rest⟩ := Option.bind_eq_some_iff.mp performed
  obtain ⟨⟨value, below⟩, popped, more⟩ := Option.bind_eq_some_iff.mp rest
  obtain ⟨⟨pointer, stack⟩, poppedNext, written⟩ := Option.bind_eq_some_iff.mp more
  obtain ⟨sized, spans, made⟩ := write?_eq written
  rw [pageSpan_length] at sized
  have top := pop?_eq_some.mp popped
  rw [popByte?_eq_some.mp poppedNext] at top
  exact ⟨type, offset, value, pointer, stack, member, top, sized, spans, made⟩

theorem initObject_eq {type : ValueType}
    (performed : perform? wiring site config ⟨.initObject, .type type⟩ =
      some ⟨touched, .goesOn next⟩) :
    ∃ pointer stack, config.stack = [pointer] :: stack ∧
      touched = pageSpan pointer 0 type.size ∧ next =
        { config with
          index := config.index + 1
          stack
          cells := wiring.clear config.cells (pageSpan pointer 0 type.size) } := by
  obtain ⟨⟨pointer, stack⟩, popped, made⟩ := Option.bind_eq_some_iff.mp performed
  cases made
  exact ⟨pointer, stack, popByte?_eq_some.mp popped, rfl, rfl⟩

theorem convert_eq {operand : Code.Operand}
    (performed : perform? wiring site config ⟨.convert, operand⟩ = some ⟨touched, .goesOn next⟩) :
    ∃ byte stack, config.stack = [byte] :: stack ∧ touched = [] ∧
      next = { config with index := config.index + 1, stack := [byte] :: stack } := by
  obtain ⟨⟨byte, stack⟩, popped, made⟩ := Option.bind_eq_some_iff.mp performed
  exact ⟨byte, stack, popByte?_eq_some.mp popped, goOn_eq made⟩

theorem duplicate_eq {operand : Code.Operand}
    (performed : perform? wiring site config ⟨.duplicate, operand⟩ =
      some ⟨touched, .goesOn next⟩) :
    ∃ value stack, config.stack = value :: stack ∧ touched = [] ∧
      next = { config with index := config.index + 1, stack := value :: value :: stack } := by
  obtain ⟨⟨value, stack⟩, popped, made⟩ := Option.bind_eq_some_iff.mp performed
  exact ⟨value, stack, pop?_eq_some.mp popped, goOn_eq made⟩

theorem discard_eq {operand : Code.Operand}
    (performed : perform? wiring site config ⟨.pop, operand⟩ = some ⟨touched, .goesOn next⟩) :
    ∃ value stack, config.stack = value :: stack ∧ touched = [] ∧
      next = { config with index := config.index + 1, stack } := by
  obtain ⟨⟨value, stack⟩, popped, made⟩ := Option.bind_eq_some_iff.mp performed
  exact ⟨value, stack, pop?_eq_some.mp popped, goOn_eq made⟩

theorem opcode_of_returns {instruction : Code.Instruction} {result : Bytes} {last : Config}
    (performed : perform? wiring site config instruction = some ⟨touched, .returns result last⟩) :
    instruction.opcode = .ret := by
  unfold perform? at performed
  split at performed
  case h_25 returns => exact returns
  all_goals
    simp [Config.load?, Config.store?, Config.write?, Config.combine?, Config.branchOn?,
      Config.read, Config.goOn, Config.goTo, Option.bind_eq_some_iff, ite_eq_iff] at performed

theorem ret_eq {operand : Code.Operand} {transition : Transition}
    (performed : perform? wiring site config ⟨.ret, operand⟩ = some transition) :
    site.subroutine.returns.size = 0 ∧ transition = { outcome := .returns [] config } ∨
      site.subroutine.returns.size ≠ 0 ∧ ∃ byte stack, config.stack = [byte] :: stack ∧
        transition = { outcome := .returns [byte] { config with stack } } := by
  simp only [perform?] at performed
  split at performed
  next empty => exact .inl ⟨empty, (Option.some.inj performed).symm⟩
  next nonempty =>
    obtain ⟨⟨byte, stack⟩, popped, made⟩ := Option.bind_eq_some_iff.mp performed
    exact .inr ⟨nonempty, byte, stack, popByte?_eq_some.mp popped, (Option.some.inj made).symm⟩

end Performing

end Cartridge.Machine
