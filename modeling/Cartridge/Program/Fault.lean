import Cartridge.Program.TypeTable

/-!
What can be wrong with a program, and the report that says so.

A fault of consistency is one of the input alone. A fault of constraint asks for something that the
machine, or the code made for it, cannot do.
-/

namespace Cartridge.Program

inductive Obstacle where
  | wideOperand (type : String)
  | wideOffset (offset : Nat)
  | notStatic (field : String)
  | notInstance (field : String)
  | outsideZeroPage (symbol : String)
  | notAddress (type : String)
  | wideDuplicate (type : String)
  | wideReturn (type : String)
  | wideResult (callee type : String)
  | wideConversion (callee type : String)
  | notCall
  | notCompileTime (callee : String)
  /-- A reason in words. -/
  | stated (reason : String)
  deriving DecidableEq, Repr

def Obstacle.message : Obstacle → String
  | .wideOperand type => s!"operand of type `{type}` is not a single byte"
  | .wideOffset offset => "offset " ++ Text.decimal offset ++ " does not fit in a byte"
  | .notStatic field => s!"`{field}` is not a static field"
  | .notInstance field => s!"`{field}` is a static field"
  | .outsideZeroPage symbol => s!"`{symbol}` is outside the zero page"
  | .notAddress type => s!"`{type}` is not a zero-page address"
  | .wideDuplicate type => s!"cannot duplicate `{type}`"
  | .wideReturn type => s!"multi-byte return value of type `{type}`"
  | .wideResult callee type => s!"`{callee}` returns multi-byte `{type}`"
  | .wideConversion callee type => s!"`{callee}` converts to multi-byte `{type}`"
  | .notCall => "compile-time evaluation of a non-call"
  | .notCompileTime callee => s!"`{callee}` is not compile-time executed"
  | .stated reason => reason

inductive Fault where
  | unresolvedType (name : String)
  | duplicateType (name : String)
  | duplicateMember (type name : String)
  | unresolvedField (type name : String)
  | unresolvedSubroutine (type name : String)
  | countMismatch (type what : String) (expected found : Nat)
  | recursiveLayout (name : String)
  | intrinsicArity (subroutine intrinsic : String) (expected found : Nat)
  | intrinsicWidth (subroutine intrinsic type : String)
  | unknownRegister (subroutine register : String)
  | constantOverflow (subroutine : String) (index : Nat) (value : Int)
  | badOperand (subroutine : String) (index : Nat) (opcode expected : String)
  | badSlot (subroutine what : String) (slot : UInt16)
  | badBranchTarget (subroutine : String) (index target : Nat)
  | noEntryPoint
  | multipleEntryPoints (names : List String)
  /-- A subroutine that calls itself, with the names along the calls. -/
  | recursion (subroutine : String) (path : List String)
  | zeroPageRange (start stop : UInt16)
  | outOfMemory (symbol : String) (size : Nat)
  | missingImplementation (subroutine implementation : String)
  | inlineOrder (caller callee : String)
  | unsupportedOpcode (subroutine : String) (index : Nat) (opcode : String)
  | unsupported (subroutine : String) (index : Nat) (obstacle : Obstacle)
  | stackUnderflow (subroutine : String) (index : Nat)
  | nonConstantArgument (subroutine callee : String) (index expected : Nat)
  | table (error : TableError)
  deriving DecidableEq, Repr

inductive FaultKind where
  | consistency
  | constraint
  deriving DecidableEq, Repr

namespace Fault

def kind : Fault → FaultKind
  | .recursion _ _ => .constraint
  | .inlineOrder _ _ => .constraint
  | .unknownRegister _ _ => .constraint
  | .intrinsicWidth _ _ _ => .constraint
  | .outOfMemory _ _ => .constraint
  | .zeroPageRange _ _ => .constraint
  | .unsupportedOpcode _ _ _ => .constraint
  | .unsupported _ _ _ => .constraint
  | .stackUnderflow _ _ => .constraint
  | .nonConstantArgument _ _ _ _ => .constraint
  | _ => .consistency

def place (index : Nat) : String :=
  "IL_" ++ Text.paddedDecimal 4 index

def message : Fault → String
  | .unresolvedType name => s!"Type `{name}` cannot be resolved"
  | .duplicateType name => s!"Type `{name}` is declared more than once"
  | .duplicateMember type name => s!"Type `{type}` declares `{name}` more than once"
  | .unresolvedField type name => s!"Field `{name}` not found in type `{type}`"
  | .unresolvedSubroutine type name => s!"Subroutine `{name}` not found in type `{type}`"
  | .countMismatch type what expected found =>
    s!"Type `{type}` lists " ++ Text.decimal expected ++ s!" {what} in its symbol table, but " ++
      Text.decimal found ++ " were delivered"
  | .recursiveLayout name => s!"Type `{name}` contains itself"
  | .intrinsicArity subroutine intrinsic expected found =>
    s!"`{subroutine}` is marked {intrinsic} and must take " ++ Text.decimal expected ++
      " parameter(s), found " ++ Text.decimal found
  | .intrinsicWidth subroutine intrinsic type =>
    s!"`{subroutine}` is marked {intrinsic}, which moves single bytes, but uses `{type}`"
  | .unknownRegister subroutine register =>
    s!"Attempted load to unknown register `{register}` in `{subroutine}`"
  | .constantOverflow subroutine index value =>
    "Constant " ++ Text.signedDecimal value ++ " at " ++ place index ++
      s!" in `{subroutine}` does not fit in a byte"
  | .badOperand subroutine index opcode expected =>
    s!"Opcode `{opcode}` at " ++ place index ++ s!" in `{subroutine}` expects a {expected} operand"
  | .badSlot subroutine what slot =>
    s!"`{subroutine}` has no {what} " ++ Text.decimal slot.toNat
  | .badBranchTarget subroutine index target =>
    "Branch at " ++ place index ++ s!" in `{subroutine}` targets " ++ Text.decimal target ++
      ", past the end of the body"
  | .noEntryPoint =>
    "Entry point not found, exactly one subroutine must be marked as `entry`"
  | .multipleEntryPoints names => "Multiple entry points: " ++ ", ".intercalate names
  | .recursion subroutine path =>
    s!"Recursion detected in `{subroutine}` (call path: " ++ " -> ".intercalate path ++ ")"
  | .zeroPageRange start stop =>
    "Zero page region $" ++ Text.hexadecimal 4 start.toNat ++ "..$" ++
      Text.hexadecimal 4 stop.toNat ++ " lies outside page zero"
  | .outOfMemory symbol size =>
    "Out of RAM while allocating " ++ Text.decimal size ++ s!" byte(s) for `{symbol}`"
  | .missingImplementation subroutine implementation =>
    s!"Implementation `{implementation}` for `{subroutine}` is not provided by the support library"
  | .inlineOrder caller callee =>
    s!"Attempted to inline `{callee}` into `{caller}` before compiling it"
  | .unsupportedOpcode subroutine index opcode =>
    s!"Opcode `{opcode}` at " ++ place index ++ s!" in `{subroutine}` is not supported"
  | .unsupported subroutine index obstacle =>
    "At " ++ place index ++ s!" in `{subroutine}`: " ++ obstacle.message
  | .stackUnderflow subroutine index =>
    "Evaluation stack underflow at " ++ place index ++ s!" in `{subroutine}`"
  | .nonConstantArgument subroutine callee index expected =>
    s!"Compile-time call to `{callee}` at " ++ place index ++ s!" in `{subroutine}` needs " ++
      Text.decimal expected ++ " constant argument(s) right before it"
  | .table error => error.message

def reportLine (fault : Fault) : String :=
  match fault.kind with
  | .consistency => "error: " ++ fault.message ++ "\n"
  | .constraint => "backend error: " ++ fault.message ++ "\n"

end Fault

def orTableFault {α : Type} : Except TableError α → Except Fault α
  | .ok value => .ok value
  | .error error => .error (.table error)

def report (faults : List Fault) : String :=
  match faults with
  | [] => "No errors were reported\n"
  | _ =>
    String.join (faults.map Fault.reportLine) ++ "Build failed with " ++
      Text.decimal faults.length ++ (if faults.length = 1 then " error\n" else " errors\n")

end Cartridge.Program
