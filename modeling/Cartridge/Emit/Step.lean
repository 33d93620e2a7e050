import Cartridge.Emit.Call

/-!
Code for single instructions.

Two bytes are combined through a temporary: the second operand is pulled into it, and then the first
into the accumulator. A comparison turns the flags into zero or one with branches of its own.
-/

namespace Cartridge.Emit

open Asm (Line Mnemonic Symbol Value)
open Code (EvalStack)
open Memory (Allocation)
open Program (Fault Field)

namespace Site

def localSlot (site : Site) (slot : UInt16) : Except Fault (Symbol × ValueType) :=
  match site.subroutine.locals[slot.toNat]?, site.memory.local? site.subroutine.id slot with
  | some type, some allocation => .ok (allocation.symbol, type)
  | _, _ => .error (.badSlot site.subroutine.fullName "local" slot)

def parameterSlot (site : Site) (slot : UInt16) : Except Fault (Symbol × ValueType) :=
  match site.subroutine.parameters[slot.toNat]?,
    site.memory.argument? site.subroutine.id slot with
  | some type, some allocation => .ok (allocation.symbol, type)
  | _, _ => .error (.badSlot site.subroutine.fullName "parameter" slot)

def badOperand {α : Type} (site : Site) (index : Nat) (opcode : Code.Opcode) : Except Fault α :=
  .error (.badOperand site.subroutine.fullName index opcode.name opcode.operandKind.name)

def field (site : Site) (index : Nat) (opcode : Code.Opcode) (id : FieldId) :
    Except Fault Field :=
  match site.types.field? id with
  | some field => .ok field
  | none => site.badOperand index opcode

def staticField (site : Site) (index : Nat) (opcode : Code.Opcode) (id : FieldId) :
    Except Fault (Field × Allocation) := do
  let field ← site.field index opcode id
  match field.isStatic, site.memory.field? id with
  | true, some allocation => return (field, allocation)
  | _, _ => site.unsupported index (.notStatic field.name)

/-- An instance field and its offset. All of its bytes have to be within reach of an index. -/
def instanceField (site : Site) (index : Nat) (opcode : Code.Opcode) (id : FieldId) :
    Except Fault (Field × Nat) := do
  let field ← site.field index opcode id
  match field.offset? with
  | none => site.unsupported index (.notInstance field.name)
  | some offset =>
    let _ ← site.byteOffset index (offset + max field.type.size 1 - 1)
    return (field, offset)

def loadSlot (symbol : Symbol) (type : ValueType) (labels : Nat) (stack : EvalStack) : Fragment :=
  { code := loadLines symbol type.size, stack := type :: stack, labels }

/-- Pulls a value into a slot, as many bytes as the slot has. -/
def storeSlot (site : Site) (index : Nat) (symbol : Symbol) (type : ValueType) (labels : Nat)
    (stack : EvalStack) : Except Fault Fragment := do
  let (_, stack) ← site.pop index stack
  return { code := storeLines symbol type.size, stack, labels }

def loadConstant (site : Site) (index : Nat) (value : Int) (labels : Nat) (stack : EvalStack) :
    Except Fault Fragment :=
  if 0 ≤ value ∧ value ≤ 0xFF then
    .ok { code := [.immediate .lda (UInt8.ofNat value.toNat), .op .pha]
          stack := .byte :: stack
          labels }
  else .error (.constantOverflow site.subroutine.fullName index value)

def loadStaticAddress (site : Site) (index : Nat) (id : FieldId) (labels : Nat)
    (stack : EvalStack) : Except Fault Fragment := do
  let (field, allocation) ← site.staticField index .loadStaticFieldAddress id
  if allocation.isZeroPage then
    return { code := [.on .lda .immediate (.symbol allocation.symbol), .op .pha]
             stack := .pointer field.type true :: stack
             labels }
  else site.unsupported index (.outsideZeroPage allocation.symbol)

def loadField (site : Site) (index : Nat) (id : FieldId) (labels : Nat) (stack : EvalStack) :
    Except Fault Fragment := do
  let (field, offset) ← site.instanceField index .loadField id
  let stack ← site.popAddress index stack
  let bytes := (List.range field.type.size).flatMap fun k =>
    [Line.on .lda .indexedX (indexedByte (offset + k)), .op .pha]
  return { code := [.op .pla, .op .tax] ++ bytes, stack := field.type :: stack, labels }

def loadFieldAddress (site : Site) (index : Nat) (id : FieldId) (labels : Nat)
    (stack : EvalStack) : Except Fault Fragment := do
  let (field, offset) ← site.instanceField index .loadFieldAddress id
  let stack ← site.popAddress index stack
  let advance : List Line :=
    if offset = 0 then [] else [.op .clc, .immediate .adc (UInt8.ofNat offset)]
  return { code := [.op .pla] ++ advance ++ [.op .pha]
           stack := .pointer field.type true :: stack
           labels }

/-- Stores a value through an address that lies below it on the hardware stack. -/
def storeFieldLines (site : Site) (index size offset : Nat) : Except Fault (List Line) :=
  match size with
  | 0 => .ok [.op .pla]
  | 1 => .ok [.op .pla, .op .tax, .op .pla, .op .tay, .on .stx .indexedY (indexedByte offset)]
  | size => do
    let depth ← site.byteOffset index (size + 1)
    let bytes := (List.range size).reverse.flatMap fun k =>
      [Line.op .pla, .on .sta .indexedX (indexedByte (offset + k))]
    return [.op .tsx, .on .ldy .indexedX (.byte depth), .op .tya, .op .tax] ++ bytes ++ [.op .pla]

def storeField (site : Site) (index : Nat) (id : FieldId) (labels : Nat) (stack : EvalStack) :
    Except Fault Fragment := do
  let (field, offset) ← site.instanceField index .storeField id
  let (_, stack) ← site.pop index stack
  let stack ← site.popAddress index stack
  return { code := ← site.storeFieldLines index field.type.size offset, stack, labels }

def initObject (site : Site) (index : Nat) (type : ValueType) (labels : Nat)
    (stack : EvalStack) : Except Fault Fragment := do
  let _ ← site.byteOffset index (type.size - 1)
  let stack ← site.popAddress index stack
  let bytes := (List.range type.size).map fun k => Line.on .sta .indexedX (indexedByte k)
  return { code := [.op .pla, .op .tax, .immediate .lda 0] ++ bytes, stack, labels }

/-- Pulls the second of two bytes into the temporary and the first into the accumulator. -/
def pullOperands : List Line :=
  [.op .pla, .direct .sta (Memory.temporary 0), .op .pla]

def arithmetic (site : Site) (index : Nat) (carry operation : Mnemonic) (labels : Nat)
    (stack : EvalStack) : Except Fault Fragment := do
  let stack ← site.popByte index stack
  let stack ← site.popByte index stack
  return { code := pullOperands ++
             [.op carry, .direct operation (Memory.temporary 0), .op .pha]
           stack := .byte :: stack
           labels }

/-- Compares two bytes. Each branch goes to where a one is made, or to where a zero is. -/
def compare (site : Site) (index : Nat) (stem : String) (branches : List (Mnemonic × Bool))
    (labels : Nat) (stack : EvalStack) : Except Fault Fragment := do
  let stack ← site.popByte index stack
  let stack ← site.popByte index stack
  let ifFalse := site.numberedLabel (stem ++ "False") (labels + 1)
  let ifTrue := site.numberedLabel (stem ++ "True") (labels + 2)
  let behind := site.numberedLabel (stem ++ "End") (labels + 3)
  let branching := branches.map fun (branch, outcome) =>
    Line.direct branch (if outcome then ifTrue else ifFalse)
  return { code := pullOperands ++ [.direct .cmp (Memory.temporary 0)] ++ branching ++
             [.label ifFalse, .immediate .lda 0, .direct .beq behind,
              .label ifTrue, .immediate .lda 1, .label behind, .op .pha]
           stack := .bool :: stack
           labels := labels + 3 }

def duplicate (site : Site) (index labels : Nat) (stack : EvalStack) : Except Fault Fragment := do
  let (type, stack) ← site.pop index stack
  match type.size with
  | 0 => return { stack := type :: type :: stack, labels }
  | 1 => return { code := [.op .pla, .op .pha, .op .pha], stack := type :: type :: stack, labels }
  | _ => site.unsupported index (.wideDuplicate type.name)

def discard (site : Site) (index labels : Nat) (stack : EvalStack) : Except Fault Fragment := do
  let (type, stack) ← site.pop index stack
  return { code := List.replicate type.size (.op .pla), stack, labels }

def branchOn (site : Site) (index : Nat) (branch : Mnemonic) (target labels : Nat)
    (stack : EvalStack) : Except Fault Fragment := do
  let stack ← site.popByte index stack
  return { code := [.op .pla, .direct branch (site.instructionLabel target)], stack, labels }

def ret (site : Site) (index labels : Nat) (stack : EvalStack) : Except Fault Fragment :=
  let returns := site.subroutine.returns
  match returns.size with
  | 0 => .ok { code := [.op .rts], stack, labels }
  | 1 => do
    let (_, stack) ← site.pop index stack
    return { code := [.op .pla, .op .rts], stack, labels }
  | _ => site.unsupported index (.wideReturn returns.name)

def step (site : Site) (index : Nat) (instruction : Code.Instruction) (labels : Nat)
    (stack : EvalStack) : Except Fault Fragment :=
  match instruction.opcode, instruction.operand with
  | .nop, _ => .ok { stack, labels }
  | .loadConstant, .constant value => site.loadConstant index value labels stack
  | .loadLocal, .local slot => do
    let (symbol, type) ← site.localSlot slot
    return loadSlot symbol type labels stack
  | .storeLocal, .local slot => do
    let (symbol, type) ← site.localSlot slot
    site.storeSlot index symbol type labels stack
  | .loadArgument, .argument slot => do
    let (symbol, type) ← site.parameterSlot slot
    return loadSlot symbol type labels stack
  | .storeArgument, .argument slot => do
    let (symbol, type) ← site.parameterSlot slot
    site.storeSlot index symbol type labels stack
  | .loadStaticField, .field id => do
    let (field, allocation) ← site.staticField index .loadStaticField id
    return loadSlot allocation.symbol field.type labels stack
  | .storeStaticField, .field id => do
    let (field, allocation) ← site.staticField index .storeStaticField id
    site.storeSlot index allocation.symbol field.type labels stack
  | .loadStaticFieldAddress, .field id => site.loadStaticAddress index id labels stack
  | .loadField, .field id => site.loadField index id labels stack
  | .loadFieldAddress, .field id => site.loadFieldAddress index id labels stack
  | .storeField, .field id => site.storeField index id labels stack
  | .initObject, .type type => site.initObject index type labels stack
  | .add, _ => site.arithmetic index .clc .adc labels stack
  | .subtract, _ => site.arithmetic index .sec .sbc labels stack
  -- Greater is different and without a borrow.
  | .compareGreater, _ =>
    site.compare index "Cgt" [(.beq, false), (.bcs, true)] labels stack
  | .compareEqual, _ => site.compare index "Ceq" [(.beq, true)] labels stack
  | .compareLess, _ => site.compare index "Clt" [(.bcc, true)] labels stack
  | .convert, _ => do
    let stack ← site.popByte index stack
    return { stack := .byte :: stack, labels }
  | .duplicate, _ => site.duplicate index labels stack
  | .pop, _ => site.discard index labels stack
  | .branch, .target target =>
    .ok { code := [.direct .jmp (site.instructionLabel target)], stack, labels }
  | .branchIfTrue, .target target => site.branchOn index .bne target labels stack
  | .branchIfFalse, .target target => site.branchOn index .beq target labels stack
  | .call, .method id =>
    match site.types.subroutine? id with
    | some callee => site.call index labels stack callee
    | none => site.badOperand index .call
  | .ret, _ => site.ret index labels stack
  | .other name, _ => .error (.unsupportedOpcode site.subroutine.fullName index name)
  | opcode, _ => site.badOperand index opcode

end Site

end Cartridge.Emit
