import Cartridge.Program.Scope

/-!
Members of types, with every name in them resolved against a scope.

Checks are made in the order in which the parts stand: the types of a subroutine's parameters,
locals and result, then its instructions one by one, then its intrinsic.
-/

namespace Cartridge.Program

structure Resolving where
  scope : Scope
  fullName : String
  parameters : List ValueType
  locals : List ValueType
  length : Nat

namespace Resolving

def operand (r : Resolving) (index : Nat) : Option Source.Operand → Except Fault Code.Operand
  | none => .ok .empty
  | some (.constant value) => .ok (.constant value)
  | some (.type reference) => return .type (← r.scope.valueType reference)
  | some (.field member) => return .field (← r.scope.field member)
  | some (.method member) => return .method (← r.scope.subroutine member)
  | some (.local slot) =>
    if slot.toNat < r.locals.length then .ok (.local slot)
    else .error (.badSlot r.fullName "local" slot)
  | some (.argument slot) =>
    if slot.toNat < r.parameters.length then .ok (.argument slot)
    else .error (.badSlot r.fullName "parameter" slot)
  | some (.target target) =>
    if target < r.length then .ok (.target target)
    else .error (.badBranchTarget r.fullName index target)

def checkKind (r : Resolving) (index : Nat) (opcode : Code.Opcode) (operand : Code.Operand) :
    Except Fault Unit :=
  if opcode.isKnown && operand.kind != opcode.operandKind then
    .error (.badOperand r.fullName index opcode.name opcode.operandKind.name)
  else .ok ()

/-- Constants fit in a byte, whatever the opcode. -/
def checkConstant (r : Resolving) (index : Nat) : Code.Operand → Except Fault Unit
  | .constant value =>
    if 0 ≤ value ∧ value ≤ 0xFF then .ok ()
    else .error (.constantOverflow r.fullName index value)
  | _ => .ok ()

def instruction (r : Resolving) (index : Nat) (source : Source.Instruction) :
    Except Fault Code.Instruction := do
  let opcode := Code.Opcode.ofName source.opcode
  let operand ← r.operand index source.operand?
  r.checkKind index opcode operand
  r.checkConstant index operand
  return { opcode, operand }

end Resolving

namespace Intrinsic

def ofSource (subroutine : String) : Source.Intrinsic → Except Fault Intrinsic
  | .storeToSymbol symbol strobe => .ok (.storeToSymbol symbol strobe)
  | .loadFromSymbol symbol => .ok (.loadFromSymbol symbol)
  | .loadToRegister register =>
    match Asm.Register.read register.toList with
    | .ok named => .ok (.loadToRegister named)
    | .error _ => .error (.unknownRegister subroutine register)
  | .alwaysInline => .ok .alwaysInline
  | .useProvided implementation => .ok (.useProvided implementation)
  | .ignore => .ok .ignore
  | .compileTime evaluator => .ok (.compileTime evaluator)

def arity? : Intrinsic → Option Nat
  | .storeToSymbol _ strobe => some (if strobe then 0 else 1)
  | .loadFromSymbol _ => some 0
  | .loadToRegister _ => some 1
  | .compileTime .convert => some 1
  | _ => none

/-- The type that passes through the accumulator, for the intrinsics that move one there. -/
def moved? (parameters : List ValueType) (returns : ValueType) : Intrinsic → Option ValueType
  | .storeToSymbol _ _ => parameters.head?
  | .loadToRegister _ => parameters.head?
  | .loadFromSymbol _ => some returns
  | _ => none

def checkArity (subroutine : String) (parameters : List ValueType) (intrinsic : Intrinsic) :
    Except Fault Unit :=
  match intrinsic.arity? with
  | some expected =>
    if expected = parameters.length then .ok ()
    else .error (.intrinsicArity subroutine intrinsic.name expected parameters.length)
  | none => .ok ()

def checkWidth (subroutine : String) (parameters : List ValueType) (returns : ValueType)
    (intrinsic : Intrinsic) : Except Fault Unit :=
  match intrinsic.moved? parameters returns with
  | some type =>
    if type.size = 1 then .ok ()
    else .error (.intrinsicWidth subroutine intrinsic.name type.name)
  | none => .ok ()

def resolve (subroutine : String) (parameters : List ValueType) (returns : ValueType)
    (source : Source.Intrinsic) : Except Fault Intrinsic := do
  let intrinsic ← ofSource subroutine source
  intrinsic.checkArity subroutine parameters
  intrinsic.checkWidth subroutine parameters returns
  return intrinsic

end Intrinsic

def resolveSubroutine (scope : Scope) (type : String) (id : SubroutineId)
    (source : Source.Subroutine) : Except Fault Subroutine := do
  let fullName := type ++ "::" ++ source.name
  let parameters ← source.parameters.mapM scope.valueType
  let locals ← source.locals.mapM scope.valueType
  let returns ← scope.valueType source.returns
  let resolving : Resolving :=
    { scope, fullName, parameters, locals, length := source.instructions.length }
  let instructions ← source.instructions.zipIdx.mapM fun (instruction, index) =>
    resolving.instruction index instruction
  let intrinsic? ← match source.intrinsic? with
    | some intrinsic => some <$> Intrinsic.resolve fullName parameters returns intrinsic
    | none => pure none
  return { id, name := source.name, fullName, parameters, locals, returns
           isEntry := source.isEntry, isRoot := source.isRoot, intrinsic?, instructions }

def resolveFields (scope : Scope) (owner : TypeId) :
    Nat → Nat → List Source.Field → Except Fault (List Field)
  | _, _, [] => .ok []
  | index, offset, source :: rest => do
    let type ← scope.valueType source.type
    let id : FieldId := { owner, index }
    if source.isStatic then
      let fields ← resolveFields scope owner (index + 1) offset rest
      return { id, name := source.name, type, offset? := none } :: fields
    else
      let fields ← resolveFields scope owner (index + 1) (offset + type.size) rest
      return { id, name := source.name, type, offset? := some offset } :: fields

def checkCount (type what : String) (expected found : Nat) : Except Fault Unit :=
  if expected = found then .ok () else .error (.countMismatch type what expected found)

def checkCounts (decl : Source.TypeDecl) : Except Fault Unit :=
  match decl.counts? with
  | some counts => do
    checkCount decl.name "fields" counts.fields decl.fields.length
    checkCount decl.name "subroutines" counts.subroutines decl.subroutines.length
  | none => .ok ()

def ownStart : ValueType → Nat
  | .record layout => layout.size - layout.ownSize
  | _ => 0

def resolveDecl (scope : Scope) (id : TypeId) (value : ValueType) (decl : Source.TypeDecl) :
    Except Fault DeclaredType := do
  checkCounts decl
  let fields ← resolveFields scope id 0 (ownStart value) decl.fields
  let subroutines ← decl.subroutines.zipIdx.mapM fun (source, index) =>
    resolveSubroutine scope decl.name { owner := id, index } source
  return { id, name := decl.name, base? := scope.base? id, fields, subroutines, value }

def resolveOrigin (scope : Scope) (id : TypeId) (value : ValueType) :
    Origin → Except Fault DeclaredType
  | .builtin kind => .ok { id, name := kind.name, base? := scope.base? id, value }
  | .declared decl => resolveDecl scope id value decl

end Cartridge.Program
