import Cartridge.Emit.Body
import Mathlib.Data.List.Basic

/-!
What code a successful compilation consists of.

The code of an instruction is a function of its operand, the types on top of the evaluation stack
and the labels numbered before it. The relation here lists all ways in which making it can succeed,
so that later arguments go through them one by one and never through the ways in which it fails.
-/

namespace Cartridge.Emit

open Asm (Line Mnemonic Symbol)
open Code (EvalStack Opcode Operand StackTracker)
open Memory (Allocation)
open Program (Body Fault Subroutine)

theorem bind_eq_ok {ε α β : Type} {first : Except ε α} {next : α → Except ε β} {result : β} :
    (first >>= next) = .ok result ↔ ∃ value, first = .ok value ∧ next value = .ok result := by
  cases first <;> simp [bind, Except.bind]

theorem pure_eq_ok {ε α : Type} {value result : α} :
    (pure value : Except ε α) = .ok result ↔ value = result := by
  simp [pure, Except.pure]

namespace Site

/-- The slot that an operand names, with the type of what it holds. -/
def slot? (site : Site) : Operand → Option (Allocation × ValueType)
  | .local slot => do
    return (← site.memory.local? site.subroutine.id slot, ← site.subroutine.locals[slot.toNat]?)
  | .argument slot => do
    return (← site.memory.argument? site.subroutine.id slot,
      ← site.subroutine.parameters[slot.toNat]?)
  | .field id => do
    let field ← site.types.field? id
    if field.isStatic then return (← site.memory.field? id, field.type) else none
  | _ => none

/-- The type and the offset of the instance field that an operand names. -/
def member? (site : Site) : Operand → Option (ValueType × Nat)
  | .field id => do
    let field ← site.types.field? id
    return (field.type, ← field.offset?)
  | _ => none

def outcomeLines (site : Site) (stem : String) (branches : List (Mnemonic × Bool))
    (labels : Nat) : List Line :=
  let ifFalse := site.numberedLabel (stem ++ "False") (labels + 1)
  let ifTrue := site.numberedLabel (stem ++ "True") (labels + 2)
  let behind := site.numberedLabel (stem ++ "End") (labels + 3)
  (branches.map fun (branch, outcome) =>
    Line.direct branch (if outcome then ifTrue else ifFalse)) ++
    [.label ifFalse, .immediate .lda 0, .direct .beq behind,
     .label ifTrue, .immediate .lda 1, .label behind, .op .pha]

inductive Lowered (site : Site) (index labels : Nat) :
    Code.Instruction → EvalStack → Fragment → Prop
  | nop {operand stack} : Lowered site index labels ⟨.nop, operand⟩ stack { stack, labels }
  | constant {value stack} (fits : 0 ≤ value ∧ value ≤ 0xFF) :
    Lowered site index labels ⟨.loadConstant, .constant value⟩ stack
      { code := [.immediate .lda (UInt8.ofNat value.toNat), .op .pha]
        stack := .byte :: stack
        labels }
  | load {opcode operand allocation type stack}
    (loads : opcode ∈ [Opcode.loadLocal, .loadArgument, .loadStaticField])
    (slot : site.slot? operand = some (allocation, type)) :
    Lowered site index labels ⟨opcode, operand⟩ stack
      { code := loadLines allocation.symbol type.size, stack := type :: stack, labels }
  | store {opcode operand allocation type top stack}
    (stores : opcode ∈ [Opcode.storeLocal, .storeArgument, .storeStaticField])
    (slot : site.slot? operand = some (allocation, type)) :
    Lowered site index labels ⟨opcode, operand⟩ (top :: stack)
      { code := storeLines allocation.symbol type.size, stack, labels }
  | staticAddress {operand allocation type stack}
    (slot : site.slot? operand = some (allocation, type)) (near : allocation.isZeroPage = true) :
    Lowered site index labels ⟨.loadStaticFieldAddress, operand⟩ stack
      { code := [.on .lda .immediate (.symbol allocation.symbol), .op .pha]
        stack := .pointer type true :: stack
        labels }
  | loadField {operand type offset top stack}
    (member : site.member? operand = some (type, offset))
    (reach : offset + max type.size 1 - 1 ≤ 0xFF) (address : top.size = 1) :
    Lowered site index labels ⟨.loadField, operand⟩ (top :: stack)
      { code := [.op .pla, .op .tax] ++ (List.range type.size).flatMap fun k =>
          [Line.on .lda .indexedX (indexedByte (offset + k)), .op .pha]
        stack := type :: stack
        labels }
  | fieldAddress {operand type offset top stack}
    (member : site.member? operand = some (type, offset))
    (reach : offset + max type.size 1 - 1 ≤ 0xFF) (address : top.size = 1) :
    Lowered site index labels ⟨.loadFieldAddress, operand⟩ (top :: stack)
      { code := [.op .pla] ++
          (if offset = 0 then [] else [.op .clc, .immediate .adc (UInt8.ofNat offset)]) ++
          [.op .pha]
        stack := .pointer type true :: stack
        labels }
  | storeField {operand type offset top second stack code}
    (member : site.member? operand = some (type, offset))
    (reach : offset + max type.size 1 - 1 ≤ 0xFF) (address : second.size = 1)
    (lines : site.storeFieldLines index type.size offset = .ok code) :
    Lowered site index labels ⟨.storeField, operand⟩ (top :: second :: stack)
      { code, stack, labels }
  | initObject {type top stack} (reach : type.size - 1 ≤ 0xFF) (address : top.size = 1) :
    Lowered site index labels ⟨.initObject, .type type⟩ (top :: stack)
      { code := [.op .pla, .op .tax, .immediate .lda 0] ++
          (List.range type.size).map fun k => Line.on .sta .indexedX (indexedByte k)
        stack
        labels }
  | arithmetic {opcode operand carry operation top second stack}
    (kind : (opcode, carry, operation) ∈
      [(Opcode.add, Mnemonic.clc, Mnemonic.adc), (.subtract, .sec, .sbc)])
    (byte : top.size = 1) (secondByte : second.size = 1) :
    Lowered site index labels ⟨opcode, operand⟩ (top :: second :: stack)
      { code := pullOperands ++
          [.op carry, .direct operation (Memory.temporary 0), .op .pha]
        stack := .byte :: stack
        labels }
  | compare {opcode operand stem branches top second stack}
    (kind : (opcode, stem, branches) ∈
      [(Opcode.compareGreater, "Cgt", [(Mnemonic.beq, false), (.bcs, true)]),
        (.compareEqual, "Ceq", [(.beq, true)]), (.compareLess, "Clt", [(.bcc, true)])])
    (byte : top.size = 1) (secondByte : second.size = 1) :
    Lowered site index labels ⟨opcode, operand⟩ (top :: second :: stack)
      { code := pullOperands ++ [.direct .cmp (Memory.temporary 0)] ++
          site.outcomeLines stem branches labels
        stack := .bool :: stack
        labels := labels + 3 }
  | convert {operand top stack} (byte : top.size = 1) :
    Lowered site index labels ⟨.convert, operand⟩ (top :: stack) { stack := .byte :: stack, labels }
  | duplicateEmpty {operand top stack} (empty : top.size = 0) :
    Lowered site index labels ⟨.duplicate, operand⟩ (top :: stack)
      { stack := top :: top :: stack, labels }
  | duplicate {operand top stack} (byte : top.size = 1) :
    Lowered site index labels ⟨.duplicate, operand⟩ (top :: stack)
      { code := [.op .pla, .op .pha, .op .pha], stack := top :: top :: stack, labels }
  | discard {operand top stack} :
    Lowered site index labels ⟨.pop, operand⟩ (top :: stack)
      { code := List.replicate top.size (.op .pla), stack, labels }
  | branch {target stack} :
    Lowered site index labels ⟨.branch, .target target⟩ stack
      { code := [.direct .jmp (site.instructionLabel target)], stack, labels }
  | branchOn {opcode mnemonic target top stack}
    (kind : (opcode, mnemonic) ∈ [(Opcode.branchIfTrue, Mnemonic.bne), (.branchIfFalse, .beq)])
    (byte : top.size = 1) :
    Lowered site index labels ⟨opcode, .target target⟩ (top :: stack)
      { code := [.op .pla, .direct mnemonic (site.instructionLabel target)], stack, labels }
  | call {id callee stack fragment} (found : site.types.subroutine? id = some callee)
    (made : site.call index labels stack callee = .ok fragment) :
    Lowered site index labels ⟨.call, .method id⟩ stack fragment
  | ret {operand stack} (empty : site.subroutine.returns.size = 0) :
    Lowered site index labels ⟨.ret, operand⟩ stack { code := [.op .rts], stack, labels }
  | retByte {operand top stack} (byte : site.subroutine.returns.size = 1) :
    Lowered site index labels ⟨.ret, operand⟩ (top :: stack)
      { code := [.op .pla, .op .rts], stack, labels }

theorem mem_of_find? {memory : Memory.Map} {slot : Memory.Slot} {allocation : Allocation}
    (found : memory.find? slot = some allocation) : allocation ∈ memory.allocations := by
  obtain ⟨position, -, placed⟩ := Option.bind_eq_some_iff.mp found
  exact List.mem_of_getElem? placed

theorem mem_of_slot? {site : Site} {operand : Operand} {allocation : Allocation}
    {type : ValueType} (slot : site.slot? operand = some (allocation, type)) :
    allocation ∈ site.memory.allocations := by
  cases operand with
  | «local» _ =>
    obtain ⟨_, found, rest⟩ := Option.bind_eq_some_iff.mp slot
    obtain ⟨_, -, made⟩ := Option.bind_eq_some_iff.mp rest
    obtain ⟨rfl, -⟩ := Prod.mk.inj (Option.some.inj made)
    exact mem_of_find? found
  | argument _ =>
    obtain ⟨_, found, rest⟩ := Option.bind_eq_some_iff.mp slot
    obtain ⟨_, -, made⟩ := Option.bind_eq_some_iff.mp rest
    obtain ⟨rfl, -⟩ := Prod.mk.inj (Option.some.inj made)
    exact mem_of_find? found
  | field _ =>
    obtain ⟨field, -, rest⟩ := Option.bind_eq_some_iff.mp slot
    split at rest
    next =>
      obtain ⟨_, found, made⟩ := Option.bind_eq_some_iff.mp rest
      obtain ⟨rfl, -⟩ := Prod.mk.inj (Option.some.inj made)
      exact mem_of_find? found
    next => contradiction
  | _ => contradiction

section Parts

variable {site : Site} {index labels : Nat} {stack rest : EvalStack}

theorem pop_eq_ok {popped : ValueType × EvalStack} :
    site.pop index stack = .ok popped ↔ stack = popped.1 :: popped.2 := by
  cases stack with
  | nil => simp [pop]
  | cons top stack =>
    obtain ⟨type, rest⟩ := popped
    simp [pop]

private theorem pop_single_eq_ok (obstacle : ValueType → Program.Obstacle) :
    (do
      let (type, rest) ← site.pop index stack
      if type.size = 1 then return rest else site.unsupported index (obstacle type)) =
        Except.ok rest ↔
      ∃ top, stack = top :: rest ∧ top.size = 1 := by
  simp only [bind_eq_ok, pop_eq_ok]
  constructor
  · rintro ⟨⟨top, stack⟩, rfl, kept⟩
    simp only at kept
    split at kept
    next byte => exact ⟨top, by rw [pure_eq_ok.mp kept], byte⟩
    next => contradiction
  · rintro ⟨top, rfl, byte⟩
    exact ⟨(top, rest), rfl, by simp [byte, pure_eq_ok]⟩

theorem popByte_eq_ok :
    site.popByte index stack = .ok rest ↔ ∃ top, stack = top :: rest ∧ top.size = 1 :=
  pop_single_eq_ok fun type => .wideOperand type.name

theorem popAddress_eq_ok :
    site.popAddress index stack = .ok rest ↔ ∃ top, stack = top :: rest ∧ top.size = 1 :=
  pop_single_eq_ok fun type => .notAddress type.name

theorem byteOffset_eq_ok {offset : Nat} {byte : UInt8} :
    site.byteOffset index offset = .ok byte ↔ offset ≤ 0xFF ∧ UInt8.ofNat offset = byte := by
  unfold byteOffset
  split
  next near => simp [near]
  next far => simp [far, unsupported]

theorem slot?_of_localSlot {slot : UInt16} {found : Symbol × ValueType}
    (ok : site.localSlot slot = .ok found) :
    ∃ allocation, site.slot? (.local slot) = some (allocation, found.2) ∧
      allocation.symbol = found.1 := by
  unfold localSlot at ok
  split at ok
  next type allocation typed placed =>
    obtain rfl := Except.ok.inj ok
    exact ⟨allocation, by simp [slot?, typed, placed], rfl⟩
  next => contradiction

theorem slot?_of_parameterSlot {slot : UInt16} {found : Symbol × ValueType}
    (ok : site.parameterSlot slot = .ok found) :
    ∃ allocation, site.slot? (.argument slot) = some (allocation, found.2) ∧
      allocation.symbol = found.1 := by
  unfold parameterSlot at ok
  split at ok
  next type allocation typed placed =>
    obtain rfl := Except.ok.inj ok
    exact ⟨allocation, by simp [slot?, typed, placed], rfl⟩
  next => contradiction

theorem field_eq_ok {opcode : Opcode} {id : FieldId} {field : Program.Field} :
    site.field index opcode id = .ok field ↔ site.types.field? id = some field := by
  unfold Site.field
  split
  next found present => simp [present]
  next absent => simp [absent, badOperand]

theorem slot?_of_staticField {opcode : Opcode} {id : FieldId}
    {found : Program.Field × Allocation} (ok : site.staticField index opcode id = .ok found) :
    site.slot? (.field id) = some (found.2, found.1.type) := by
  obtain ⟨field, present, ok⟩ := bind_eq_ok.mp ok
  rw [field_eq_ok] at present
  split at ok
  next allocation static placed =>
    obtain rfl := pure_eq_ok.mp ok
    simp [slot?, present, static, placed]
  next => contradiction

theorem member?_of_instanceField {opcode : Opcode} {id : FieldId} {found : Program.Field × Nat}
    (ok : site.instanceField index opcode id = .ok found) :
    site.member? (.field id) = some (found.1.type, found.2) ∧
      found.2 + max found.1.type.size 1 - 1 ≤ 0xFF := by
  obtain ⟨field, present, ok⟩ := bind_eq_ok.mp ok
  rw [field_eq_ok] at present
  split at ok
  next => contradiction
  next offset placed =>
    obtain ⟨byte, near, ok⟩ := bind_eq_ok.mp ok
    obtain rfl := pure_eq_ok.mp ok
    exact ⟨by simp [member?, present, placed], (byteOffset_eq_ok.mp near).1⟩

/-- The three ways to store a field, by the size of its value. -/
theorem storeFieldLines_eq_ok {size offset : Nat} {code : List Line}
    (made : site.storeFieldLines index size offset = .ok code) :
    size = 0 ∧ code = [.op .pla] ∨
    size = 1 ∧ code =
      [.op .pla, .op .tax, .op .pla, .op .tay, .on .stx .indexedY (indexedByte offset)] ∨
    2 ≤ size ∧ size + 1 ≤ 0xFF ∧ code =
      [.op .tsx, .on .ldy .indexedX (.byte (UInt8.ofNat (size + 1))), .op .tya, .op .tax] ++
        ((List.range size).reverse.flatMap fun k =>
          [Line.op .pla, .on .sta .indexedX (indexedByte (offset + k))]) ++ [.op .pla] := by
  unfold storeFieldLines at made
  split at made
  next => exact .inl ⟨rfl, (Except.ok.inj made).symm⟩
  next => exact .inr (.inl ⟨rfl, (Except.ok.inj made).symm⟩)
  next empty single =>
    obtain ⟨depth, near, lines⟩ := bind_eq_ok.mp made
    obtain ⟨within, rfl⟩ := byteOffset_eq_ok.mp near
    have nonempty : size ≠ 0 := empty
    have several : size ≠ 1 := single
    exact .inr (.inr ⟨by omega, within, (pure_eq_ok.mp lines).symm⟩)

theorem lowered_of_storeSlot {opcode : Opcode} {operand : Operand} {allocation : Allocation}
    {type : ValueType} {fragment : Fragment}
    (stores : opcode ∈ [Opcode.storeLocal, .storeArgument, .storeStaticField])
    (slot : site.slot? operand = some (allocation, type))
    (compiled : site.storeSlot index allocation.symbol type labels stack = .ok fragment) :
    Lowered site index labels ⟨opcode, operand⟩ stack fragment := by
  obtain ⟨⟨top, rest⟩, popped, made⟩ := bind_eq_ok.mp compiled
  obtain rfl := pop_eq_ok.mp popped
  obtain rfl := pure_eq_ok.mp made
  exact .store stores slot

theorem lowered_of_arithmetic {opcode : Opcode} {operand : Operand} {carry operation : Mnemonic}
    {fragment : Fragment}
    (kind : (opcode, carry, operation) ∈
      [(Opcode.add, Mnemonic.clc, Mnemonic.adc), (.subtract, .sec, .sbc)])
    (compiled : site.arithmetic index carry operation labels stack = .ok fragment) :
    Lowered site index labels ⟨opcode, operand⟩ stack fragment := by
  obtain ⟨below, popped, next⟩ := bind_eq_ok.mp compiled
  obtain ⟨top, rfl, byte⟩ := popByte_eq_ok.mp popped
  obtain ⟨rest, poppedNext, made⟩ := bind_eq_ok.mp next
  obtain ⟨second, rfl, secondByte⟩ := popByte_eq_ok.mp poppedNext
  obtain rfl := pure_eq_ok.mp made
  exact .arithmetic kind byte secondByte

theorem lowered_of_compare {opcode : Opcode} {operand : Operand} {stem : String}
    {branches : List (Mnemonic × Bool)} {fragment : Fragment}
    (kind : (opcode, stem, branches) ∈
      [(Opcode.compareGreater, "Cgt", [(Mnemonic.beq, false), (.bcs, true)]),
        (.compareEqual, "Ceq", [(.beq, true)]), (.compareLess, "Clt", [(.bcc, true)])])
    (compiled : site.compare index stem branches labels stack = .ok fragment) :
    Lowered site index labels ⟨opcode, operand⟩ stack fragment := by
  obtain ⟨below, popped, next⟩ := bind_eq_ok.mp compiled
  obtain ⟨top, rfl, byte⟩ := popByte_eq_ok.mp popped
  obtain ⟨rest, poppedNext, made⟩ := bind_eq_ok.mp next
  obtain ⟨second, rfl, secondByte⟩ := popByte_eq_ok.mp poppedNext
  have result := pure_eq_ok.mp made
  rw [List.append_assoc] at result
  rw [← result]
  exact .compare kind byte secondByte

theorem lowered_of_loadStaticAddress {id : FieldId} {fragment : Fragment}
    (compiled : site.loadStaticAddress index id labels stack = .ok fragment) :
    Lowered site index labels ⟨.loadStaticFieldAddress, .field id⟩ stack fragment := by
  obtain ⟨found, placed, made⟩ := bind_eq_ok.mp compiled
  simp only at made
  split at made
  next near =>
    obtain rfl := pure_eq_ok.mp made
    exact .staticAddress (slot?_of_staticField placed) near
  next => contradiction

theorem lowered_of_loadField {id : FieldId} {fragment : Fragment}
    (compiled : site.loadField index id labels stack = .ok fragment) :
    Lowered site index labels ⟨.loadField, .field id⟩ stack fragment := by
  obtain ⟨found, placed, next⟩ := bind_eq_ok.mp compiled
  obtain ⟨rest, popped, made⟩ := bind_eq_ok.mp next
  obtain ⟨member, reach⟩ := member?_of_instanceField placed
  obtain ⟨top, rfl, address⟩ := popAddress_eq_ok.mp popped
  obtain rfl := pure_eq_ok.mp made
  exact .loadField member reach address

theorem lowered_of_loadFieldAddress {id : FieldId} {fragment : Fragment}
    (compiled : site.loadFieldAddress index id labels stack = .ok fragment) :
    Lowered site index labels ⟨.loadFieldAddress, .field id⟩ stack fragment := by
  obtain ⟨found, placed, next⟩ := bind_eq_ok.mp compiled
  obtain ⟨rest, popped, made⟩ := bind_eq_ok.mp next
  obtain ⟨member, reach⟩ := member?_of_instanceField placed
  obtain ⟨top, rfl, address⟩ := popAddress_eq_ok.mp popped
  obtain rfl := pure_eq_ok.mp made
  exact .fieldAddress member reach address

theorem lowered_of_storeField {id : FieldId} {fragment : Fragment}
    (compiled : site.storeField index id labels stack = .ok fragment) :
    Lowered site index labels ⟨.storeField, .field id⟩ stack fragment := by
  obtain ⟨found, placed, next⟩ := bind_eq_ok.mp compiled
  obtain ⟨member, reach⟩ := member?_of_instanceField placed
  obtain ⟨⟨top, below⟩, popped, more⟩ := bind_eq_ok.mp next
  obtain rfl := pop_eq_ok.mp popped
  obtain ⟨rest, poppedNext, further⟩ := bind_eq_ok.mp more
  obtain ⟨second, rfl, address⟩ := popAddress_eq_ok.mp poppedNext
  obtain ⟨code, lines, made⟩ := bind_eq_ok.mp further
  obtain rfl := pure_eq_ok.mp made
  exact .storeField member reach address lines

theorem lowered_of_initObject {type : ValueType} {fragment : Fragment}
    (compiled : site.initObject index type labels stack = .ok fragment) :
    Lowered site index labels ⟨.initObject, .type type⟩ stack fragment := by
  obtain ⟨byte, near, next⟩ := bind_eq_ok.mp compiled
  obtain ⟨rest, popped, made⟩ := bind_eq_ok.mp next
  obtain ⟨top, rfl, address⟩ := popAddress_eq_ok.mp popped
  obtain rfl := pure_eq_ok.mp made
  exact .initObject (byteOffset_eq_ok.mp near).1 address

theorem lowered_of_duplicate {operand : Operand} {fragment : Fragment}
    (compiled : site.duplicate index labels stack = .ok fragment) :
    Lowered site index labels ⟨.duplicate, operand⟩ stack fragment := by
  obtain ⟨⟨top, rest⟩, popped, made⟩ := bind_eq_ok.mp compiled
  obtain rfl := pop_eq_ok.mp popped
  simp only at made
  split at made
  next empty =>
    obtain rfl := pure_eq_ok.mp made
    exact .duplicateEmpty empty
  next byte =>
    obtain rfl := pure_eq_ok.mp made
    exact .duplicate byte
  next => contradiction

theorem lowered_of_branchOn {opcode : Opcode} {mnemonic : Mnemonic} {target : Nat}
    {fragment : Fragment}
    (kind : (opcode, mnemonic) ∈ [(Opcode.branchIfTrue, Mnemonic.bne), (.branchIfFalse, .beq)])
    (compiled : site.branchOn index mnemonic target labels stack = .ok fragment) :
    Lowered site index labels ⟨opcode, .target target⟩ stack fragment := by
  obtain ⟨rest, popped, made⟩ := bind_eq_ok.mp compiled
  obtain ⟨top, rfl, byte⟩ := popByte_eq_ok.mp popped
  obtain rfl := pure_eq_ok.mp made
  exact .branchOn kind byte

theorem lowered_of_ret {operand : Operand} {fragment : Fragment}
    (compiled : site.ret index labels stack = .ok fragment) :
    Lowered site index labels ⟨.ret, operand⟩ stack fragment := by
  simp only [Site.ret] at compiled
  split at compiled
  next empty =>
    obtain rfl := Except.ok.inj compiled
    exact .ret empty
  next byte =>
    obtain ⟨⟨top, rest⟩, popped, made⟩ := bind_eq_ok.mp compiled
    obtain rfl := pop_eq_ok.mp popped
    obtain rfl := pure_eq_ok.mp made
    exact .retByte byte
  next => contradiction

theorem lowered_of_loadSlot {opcode : Opcode} {operand : Operand} {allocation : Allocation}
    {type : ValueType} {symbol : Symbol} {fragment : Fragment}
    (loads : opcode ∈ [Opcode.loadLocal, .loadArgument, .loadStaticField])
    (slot : site.slot? operand = some (allocation, type)) (named : allocation.symbol = symbol)
    (made : (pure (loadSlot symbol type labels stack) : Except Fault Fragment) = .ok fragment) :
    Lowered site index labels ⟨opcode, operand⟩ stack fragment := by
  obtain rfl := pure_eq_ok.mp made
  subst named
  exact .load loads slot

theorem lowered_of_step {instruction : Code.Instruction} {fragment : Fragment}
    (compiled : site.step index instruction labels stack = .ok fragment) :
    Lowered site index labels instruction stack fragment := by
  obtain ⟨opcode, operand⟩ := instruction
  cases opcode with
  | nop =>
    obtain rfl := Except.ok.inj compiled
    exact .nop
  | loadConstant =>
    cases operand with
    | constant value =>
      simp only [step, loadConstant] at compiled
      split at compiled
      next fits =>
        obtain rfl := Except.ok.inj compiled
        exact .constant fits
      next => contradiction
    | _ => contradiction
  | loadLocal =>
    cases operand with
    | «local» slot =>
      obtain ⟨found, placed, made⟩ := bind_eq_ok.mp compiled
      obtain ⟨allocation, named, symbol⟩ := slot?_of_localSlot placed
      exact lowered_of_loadSlot (by simp) named symbol made
    | _ => contradiction
  | loadArgument =>
    cases operand with
    | argument slot =>
      obtain ⟨found, placed, made⟩ := bind_eq_ok.mp compiled
      obtain ⟨allocation, named, symbol⟩ := slot?_of_parameterSlot placed
      exact lowered_of_loadSlot (by simp) named symbol made
    | _ => contradiction
  | loadStaticField =>
    cases operand with
    | field id =>
      obtain ⟨found, placed, made⟩ := bind_eq_ok.mp compiled
      exact lowered_of_loadSlot (by simp) (slot?_of_staticField placed) rfl made
    | _ => contradiction
  | storeLocal =>
    cases operand with
    | «local» slot =>
      obtain ⟨⟨symbol, type⟩, placed, made⟩ := bind_eq_ok.mp compiled
      obtain ⟨allocation, named, rfl⟩ := slot?_of_localSlot placed
      exact lowered_of_storeSlot (by simp) named made
    | _ => contradiction
  | storeArgument =>
    cases operand with
    | argument slot =>
      obtain ⟨⟨symbol, type⟩, placed, made⟩ := bind_eq_ok.mp compiled
      obtain ⟨allocation, named, rfl⟩ := slot?_of_parameterSlot placed
      exact lowered_of_storeSlot (by simp) named made
    | _ => contradiction
  | storeStaticField =>
    cases operand with
    | field id =>
      obtain ⟨found, placed, made⟩ := bind_eq_ok.mp compiled
      exact lowered_of_storeSlot (by simp) (slot?_of_staticField placed) made
    | _ => contradiction
  | loadStaticFieldAddress =>
    cases operand with
    | field id => exact lowered_of_loadStaticAddress compiled
    | _ => contradiction
  | loadField =>
    cases operand with
    | field id => exact lowered_of_loadField compiled
    | _ => contradiction
  | loadFieldAddress =>
    cases operand with
    | field id => exact lowered_of_loadFieldAddress compiled
    | _ => contradiction
  | storeField =>
    cases operand with
    | field id => exact lowered_of_storeField compiled
    | _ => contradiction
  | initObject =>
    cases operand with
    | type type => exact lowered_of_initObject compiled
    | _ => contradiction
  | add => exact lowered_of_arithmetic (by simp) compiled
  | subtract => exact lowered_of_arithmetic (by simp) compiled
  | compareGreater => exact lowered_of_compare (by simp) compiled
  | compareEqual => exact lowered_of_compare (by simp) compiled
  | compareLess => exact lowered_of_compare (by simp) compiled
  | convert =>
    obtain ⟨rest, popped, made⟩ := bind_eq_ok.mp compiled
    obtain ⟨top, rfl, byte⟩ := popByte_eq_ok.mp popped
    obtain rfl := pure_eq_ok.mp made
    exact .convert byte
  | duplicate => exact lowered_of_duplicate compiled
  | pop =>
    obtain ⟨⟨top, rest⟩, popped, made⟩ := bind_eq_ok.mp compiled
    obtain rfl := pop_eq_ok.mp popped
    obtain rfl := pure_eq_ok.mp made
    exact .discard
  | branch =>
    cases operand with
    | target target =>
      obtain rfl := Except.ok.inj compiled
      exact .branch
    | _ => contradiction
  | branchIfTrue =>
    cases operand with
    | target target => exact lowered_of_branchOn (by simp) compiled
    | _ => contradiction
  | branchIfFalse =>
    cases operand with
    | target target => exact lowered_of_branchOn (by simp) compiled
    | _ => contradiction
  | call =>
    cases operand with
    | method id =>
      simp only [step] at compiled
      split at compiled
      next callee found => exact .call found compiled
      next => contradiction
    | _ => contradiction
  | ret => exact lowered_of_ret compiled
  | other name => contradiction

end Parts

/-- No call is left to the compiler itself. -/
def ExecutesNone (site : Site) : Prop :=
  ∀ instruction ∈ site.subroutine.instructions, executedCallee? site.types instruction = none

/-- What has been compiled of a body before an instruction, when each is compiled on its own. -/
def progress (site : Site) (index : Nat) : Except Fault Progress :=
  ((List.range index).map Action.compile).foldlM
    (site.advance (Code.targets site.subroutine.instructions))
    { tracker := StackTracker.start site.subroutine.flowGraph }

section Progress

variable {site : Site}

theorem mapM_groupAt? {types : Program.TypeTable} (subroutine : Subroutine)
    {entries : List (Code.Instruction × Nat)}
    (unexecuted : ∀ entry ∈ entries, executedCallee? types entry.1 = none) :
    ∃ found, entries.mapM (groupAt? types subroutine) = .ok found ∧ found.filterMap id = [] := by
  induction entries with
  | nil => exact ⟨[], rfl, rfl⟩
  | cons entry entries ih =>
    obtain ⟨found, rest, empty⟩ :=
      ih fun other member => unexecuted other (List.mem_cons_of_mem _ member)
    have first : groupAt? types subroutine entry = .ok none := by
      simp only [groupAt?, unexecuted entry List.mem_cons_self]
    refine ⟨none :: found, ?_, empty⟩
    rw [List.mapM_cons, first, rest]
    rfl

theorem actionsFrom_nil (index stop : Nat) :
    actionsFrom [] index stop = (List.range' index (stop - index)).map Action.compile := by
  induction left : stop - index generalizing index with
  | zero =>
    rw [actionsFrom, if_neg (by omega)]
    rfl
  | succ _ ih =>
    rw [actionsFrom, if_pos (by omega), List.range'_succ, List.map_cons,
      ← ih (index + 1) (by omega)]
    rfl

theorem plan_of_executesNone (unexecuted : site.ExecutesNone) :
    plan site.types site.subroutine =
      .ok ((List.range site.subroutine.instructions.length).map Action.compile) := by
  have entries : ∀ entry ∈ site.subroutine.instructions.zipIdx,
      executedCallee? site.types entry.1 = none :=
    fun entry member => unexecuted entry.1 (List.fst_mem_of_mem_zipIdx member)
  obtain ⟨found, grouped, empty⟩ := mapM_groupAt? site.subroutine entries
  refine bind_eq_ok.mpr ⟨[], bind_eq_ok.mpr ⟨found, grouped, pure_eq_ok.mpr empty⟩, ?_⟩
  refine pure_eq_ok.mpr ?_
  rw [actionsFrom_nil, Nat.sub_zero, List.range_eq_range']

theorem progress_succ (index : Nat) :
    site.progress (index + 1) = site.progress index >>= fun before =>
      site.advance (Code.targets site.subroutine.instructions) before (.compile index) := by
  rw [progress, List.range_succ, List.map_append, List.foldlM_append]
  simp [progress]

theorem progress_of_le {index last : Nat} {done : Progress} (made : site.progress last = .ok done)
    (before : index ≤ last) : ∃ earlier, site.progress index = .ok earlier := by
  induction before generalizing done with
  | refl => exact ⟨done, made⟩
  | step _ ih =>
    rw [progress_succ] at made
    obtain ⟨earlier, found, -⟩ := bind_eq_ok.mp made
    exact ih found

theorem compile_eq_ok (unexecuted : site.ExecutesNone) {body : Body} :
    site.compile = .ok body ↔ ∃ done,
      site.progress site.subroutine.instructions.length = .ok done ∧
        body = { code := done.code, data := done.data } := by
  have planned := plan_of_executesNone unexecuted
  constructor
  · intro compiled
    obtain ⟨actions, same, folded⟩ := bind_eq_ok.mp compiled
    obtain rfl := Except.ok.inj (planned.symm.trans same)
    obtain ⟨done, found, made⟩ := bind_eq_ok.mp folded
    exact ⟨done, found, (pure_eq_ok.mp made).symm⟩
  · rintro ⟨done, found, rfl⟩
    exact bind_eq_ok.mpr ⟨_, planned, bind_eq_ok.mpr ⟨done, found, rfl⟩⟩

def Progress.after (site : Site) (index : Nat) (before : Progress) (fragment : Fragment) :
    Progress :=
  { tracker := (before.tracker.enter index).setStack fragment.stack
    labels := fragment.labels
    code := before.code ++
      site.actionLabels (Code.targets site.subroutine.instructions) (.compile index) ++
      fragment.code
    data := before.data ++ fragment.data }

theorem progress_succ_eq_ok {index : Nat} {instruction : Code.Instruction} {done : Progress}
    (found : site.subroutine.instructions[index]? = some instruction)
    (made : site.progress (index + 1) = .ok done) :
    ∃ before fragment, site.progress index = .ok before ∧
      site.step index instruction before.labels (before.tracker.enter index).stack = .ok fragment ∧
      done = Progress.after site index before fragment := by
  rw [progress_succ] at made
  obtain ⟨before, reached, advanced⟩ := bind_eq_ok.mp made
  obtain ⟨fragment, performed, result⟩ := bind_eq_ok.mp advanced
  refine ⟨before, fragment, reached, ?_, (pure_eq_ok.mp result).symm⟩
  simpa only [perform, Action.anchor, found] using performed

/-- In a body that was compiled, so was each of its instructions. -/
theorem step_of_compile (unexecuted : site.ExecutesNone) {body : Body}
    (compiled : site.compile = .ok body) {index : Nat} {instruction : Code.Instruction}
    (found : site.subroutine.instructions[index]? = some instruction) :
    ∃ before fragment, site.progress index = .ok before ∧
      site.step index instruction before.labels (before.tracker.enter index).stack = .ok fragment ∧
      site.progress (index + 1) = .ok (Progress.after site index before fragment) := by
  obtain ⟨done, complete, -⟩ := (compile_eq_ok unexecuted).mp compiled
  have inside := (List.getElem?_eq_some_iff.mp found).1
  obtain ⟨next, made⟩ := progress_of_le complete (Nat.succ_le_of_lt inside)
  obtain ⟨before, fragment, reached, performed, rfl⟩ := progress_succ_eq_ok found made
  exact ⟨before, fragment, reached, performed, made⟩

end Progress

end Site

end Cartridge.Emit
