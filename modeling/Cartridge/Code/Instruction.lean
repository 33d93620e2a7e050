import Cartridge.Layout.ValueType
import Cartridge.Text.Cut

/-!
Instructions of the stack machine, with their operands resolved.

An opcode and an operand are kept apart, since a body that was never checked may pair them wrongly.
Every name makes an opcode: those without a meaning are kept as they were written.
-/

namespace Cartridge

abbrev TypeId := Nat

structure FieldId where
  owner : TypeId
  index : Nat
  deriving DecidableEq, Repr

structure SubroutineId where
  owner : TypeId
  index : Nat
  deriving DecidableEq, Repr

def SubroutineId.le (first second : SubroutineId) : Bool :=
  first.owner < second.owner || (first.owner == second.owner && first.index ≤ second.index)

namespace Code

inductive Opcode where
  | nop
  | loadConstant
  | loadLocal
  | loadArgument
  | storeLocal
  | storeArgument
  | loadStaticField
  | storeStaticField
  | loadStaticFieldAddress
  | loadField
  | loadFieldAddress
  | storeField
  | initObject
  | add
  | subtract
  | compareGreater
  | compareEqual
  | compareLess
  | convert
  | duplicate
  | pop
  | branch
  | branchIfTrue
  | branchIfFalse
  | call
  | ret
  /-- A name without a meaning here. -/
  | other (name : String)
  deriving DecidableEq, Repr

inductive OperandKind where
  | empty
  | constant
  | local
  | argument
  | field
  | method
  | type
  | target
  deriving DecidableEq, Repr

def OperandKind.name : OperandKind → String
  | .empty => "empty"
  | .constant => "constant"
  | .local => "local"
  | .argument => "argument"
  | .field => "field"
  | .method => "method"
  | .type => "type"
  | .target => "branch target"

namespace Opcode

def known : List Opcode :=
  [.nop, .loadConstant, .loadLocal, .loadArgument, .storeLocal, .storeArgument, .loadStaticField,
    .storeStaticField, .loadStaticFieldAddress, .loadField, .loadFieldAddress, .storeField,
    .initObject, .add, .subtract, .compareGreater, .compareEqual, .compareLess, .convert,
    .duplicate, .pop, .branch, .branchIfTrue, .branchIfFalse, .call, .ret]

def name : Opcode → String
  | .nop => "nop"
  | .loadConstant => "ldc"
  | .loadLocal => "ldloc"
  | .loadArgument => "ldarg"
  | .storeLocal => "stloc"
  | .storeArgument => "starg"
  | .loadStaticField => "ldsfld"
  | .storeStaticField => "stsfld"
  | .loadStaticFieldAddress => "ldsflda"
  | .loadField => "ldfld"
  | .loadFieldAddress => "ldflda"
  | .storeField => "stfld"
  | .initObject => "initobj"
  | .add => "add"
  | .subtract => "sub"
  | .compareGreater => "cgt"
  | .compareEqual => "ceq"
  | .compareLess => "clt"
  | .convert => "conv"
  | .duplicate => "dup"
  | .pop => "pop"
  | .branch => "br"
  | .branchIfTrue => "brtrue"
  | .branchIfFalse => "brfalse"
  | .call => "call"
  | .ret => "ret"
  | .other name => name

def ofName (name : String) : Opcode :=
  let matching := known.find? fun opcode =>
    Text.upper opcode.name.toList == Text.upper name.toList
  matching.getD (.other name)

def isKnown : Opcode → Bool
  | .other _ => false
  | _ => true

def operandKind : Opcode → OperandKind
  | .loadConstant => .constant
  | .loadLocal => .local
  | .storeLocal => .local
  | .loadArgument => .argument
  | .storeArgument => .argument
  | .loadStaticField => .field
  | .storeStaticField => .field
  | .loadStaticFieldAddress => .field
  | .loadField => .field
  | .loadFieldAddress => .field
  | .storeField => .field
  | .initObject => .type
  | .branch => .target
  | .branchIfTrue => .target
  | .branchIfFalse => .target
  | .call => .method
  | _ => .empty

def endsBlock : Opcode → Bool
  | .branch => true
  | .branchIfTrue => true
  | .branchIfFalse => true
  | .ret => true
  | _ => false

def fallsThrough : Opcode → Bool
  | .branch => false
  | .ret => false
  | _ => true

end Opcode

inductive Operand where
  | empty
  | constant (value : Int)
  | local (slot : UInt16)
  | argument (slot : UInt16)
  | field (id : FieldId)
  | method (id : SubroutineId)
  | type (type : ValueType)
  /-- The index of an instruction of the same body. -/
  | target (index : Nat)

def Operand.kind : Operand → OperandKind
  | .empty => .empty
  | .constant _ => .constant
  | .local _ => .local
  | .argument _ => .argument
  | .field _ => .field
  | .method _ => .method
  | .type _ => .type
  | .target _ => .target

structure Instruction where
  opcode : Opcode
  operand : Operand := .empty

namespace Instruction

def branchTarget? (instruction : Instruction) : Option Nat :=
  match instruction.opcode, instruction.operand with
  | .branch, .target index => some index
  | .branchIfTrue, .target index => some index
  | .branchIfFalse, .target index => some index
  | _, _ => none

def endsBlock (instruction : Instruction) : Bool :=
  instruction.opcode.endsBlock

def fallsThrough (instruction : Instruction) : Bool :=
  instruction.opcode.fallsThrough

def callee? (instruction : Instruction) : Option SubroutineId :=
  match instruction.opcode, instruction.operand with
  | .call, .method id => some id
  | _, _ => none

end Instruction

end Code

end Cartridge
