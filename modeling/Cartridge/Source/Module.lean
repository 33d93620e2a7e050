/-!
Modules as a front end delivers them.

Every name is still text: types are referred to by name, members by the name of a type and their
own, and registers by whatever was written. Resolution turns a module into a program.
-/

namespace Cartridge.Source

structure MemberName where
  type : String
  name : String
  deriving DecidableEq, Repr

inductive Operand where
  | constant (value : Int)
  | local (slot : UInt16)
  | argument (slot : UInt16)
  /-- The index of an instruction of the same body. -/
  | target (index : Nat)
  | field (member : MemberName)
  | method (member : MemberName)
  | type (name : String)
  deriving DecidableEq, Repr

structure Instruction where
  opcode : String
  operand? : Option Operand := none
  deriving DecidableEq, Repr

inductive Evaluator where
  /-- Gives a constant byte the type that the subroutine returns. -/
  | convert
  /-- Places the bytes in ROM and yields their address. -/
  | data
  deriving DecidableEq, Repr

/-- How a subroutine departs from being compiled and called. -/
inductive Intrinsic where
  | storeToSymbol (symbol : String) (strobe : Bool)
  | loadFromSymbol (symbol : String)
  | loadToRegister (register : String)
  | alwaysInline
  | useProvided (implementation : String)
  | ignore
  | compileTime (evaluator : Evaluator)
  deriving DecidableEq, Repr

structure Field where
  name : String
  type : String
  isStatic : Bool := false
  deriving DecidableEq, Repr

structure Subroutine where
  name : String
  parameters : List String := []
  locals : List String := []
  returns : String := "void"
  isEntry : Bool := false
  isRoot : Bool := false
  intrinsic? : Option Intrinsic := none
  instructions : List Instruction := []
  deriving DecidableEq, Repr

structure Counts where
  fields : Nat
  subroutines : Nat
  deriving DecidableEq, Repr

structure TypeDecl where
  name : String
  base? : Option String := none
  fields : List Field := []
  subroutines : List Subroutine := []
  counts? : Option Counts := none
  deriving DecidableEq, Repr

structure Module where
  types : List TypeDecl := []
  deriving DecidableEq, Repr

def Module.merge (modules : List Module) : Module :=
  { types := modules.flatMap (·.types) }

end Cartridge.Source
