import Cartridge.Asm.Line
import Cartridge.Asm.Naming
import Cartridge.Code.FlowGraph
import Cartridge.Source.Module

/-!
Declared types with their members, once all names are resolved.

A subroutine carries its instructions and, after compilation, its body of assembly lines.
-/

namespace Cartridge.Program

inductive Intrinsic where
  | storeToSymbol (symbol : Asm.Symbol) (strobe : Bool)
  | loadFromSymbol (symbol : Asm.Symbol)
  | loadToRegister (register : Asm.Register)
  | alwaysInline
  | useProvided (implementation : String)
  | ignore
  | compileTime (evaluator : Source.Evaluator)
  deriving DecidableEq, Repr

namespace Intrinsic

def name : Intrinsic → String
  | .storeToSymbol _ _ => "store_to_symbol"
  | .loadFromSymbol _ => "load_from_symbol"
  | .loadToRegister _ => "load_to_register"
  | .alwaysInline => "always_inline"
  | .useProvided _ => "use_provided_implementation"
  | .ignore => "ignore_implementation"
  | .compileTime _ => "compile_time_executed"

/-- Whether a call is replaced where it stands, so that the subroutine has no body of its own. -/
def replacesCall : Intrinsic → Bool
  | .storeToSymbol _ _ => true
  | .loadFromSymbol _ => true
  | .loadToRegister _ => true
  | .compileTime _ => true
  | _ => false

end Intrinsic

structure Body where
  code : List Asm.Line
  /-- Tables in ROM, placed after the code. -/
  data : List Asm.Line := []
  deriving DecidableEq, Repr

structure Subroutine where
  id : SubroutineId
  name : String
  /-- The name qualified by that of the type. -/
  fullName : String
  parameters : List ValueType := []
  locals : List ValueType := []
  returns : ValueType := .primitive .void
  isEntry : Bool := false
  isRoot : Bool := false
  intrinsic? : Option Intrinsic := none
  instructions : List Code.Instruction := []
  body? : Option Body := none

namespace Subroutine

def label (subroutine : Subroutine) : Asm.Symbol :=
  Asm.mangle subroutine.fullName

def replacesCall (subroutine : Subroutine) : Bool :=
  subroutine.intrinsic?.any Intrinsic.replacesCall

def flowGraph (subroutine : Subroutine) : Code.FlowGraph :=
  .ofBody subroutine.instructions

end Subroutine

structure Field where
  id : FieldId
  name : String
  type : ValueType
  /-- The place inside an instance, which static fields have none of. -/
  offset? : Option Nat

def Field.isStatic (field : Field) : Bool :=
  field.offset?.isNone

structure DeclaredType where
  id : TypeId
  name : String
  base? : Option TypeId := none
  fields : List Field := []
  subroutines : List Subroutine := []
  /-- The type of the values of a declared type. -/
  value : ValueType

namespace DeclaredType

def size (type : DeclaredType) : Nat :=
  type.value.size

def ownSize (type : DeclaredType) : Nat :=
  match type.value with
  | .record layout => layout.ownSize
  | value => value.size

def fieldIndex? (type : DeclaredType) (name : String) : Option Nat :=
  type.fields.findIdx? fun field => field.name == name

def subroutineIndex? (type : DeclaredType) (name : String) : Option Nat :=
  type.subroutines.findIdx? fun subroutine => subroutine.name == name

end DeclaredType

end Cartridge.Program
