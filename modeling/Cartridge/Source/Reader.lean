import Cartridge.Json.Document
import Cartridge.Source.Module

/-!
Modules out of JSON documents.

A record is an object whose keys name its fields, or an array of the fields in their order from
which trailing ones may be missing. Keys that name no field are passed over whatever they hold; a
field given twice is refused. A choice is an object with the chosen name as its only key, or just
that name where nothing goes with it.
-/

namespace Cartridge.Source

open Json (Document)

/-- A reader refuses a document without giving a reason. -/
abbrev Reader (α : Type) := Document → Option α

def readText : Reader String
  | .text content => content
  | _ => none

def readBool : Reader Bool
  | .bool value => some value
  | _ => none

def readInteger (least greatest : Int) : Reader Int
  | .number (.integer value) =>
    if least ≤ value ∧ value ≤ greatest then some value else none
  | _ => none

def readSlot : Reader UInt16 := fun document =>
  (readInteger 0 0xFFFF document).map fun value => UInt16.ofNat value.toNat

def readCount : Reader Nat := fun document =>
  (readInteger 0 0xFFFFFFFFFFFFFFFF document).map Int.toNat

def readConstant : Reader Int :=
  readInteger (-0x8000000000000000) 0x7FFFFFFFFFFFFFFF

def readList {α : Type} (read : Reader α) : Reader (List α)
  | .array items => items.mapM read
  | _ => none

/-- Null stands for an absent value. -/
def readOptional {α : Type} (read : Reader α) : Reader (Option α)
  | .null => some none
  | document => (read document).map some

def entriesFor? (names : List String) (entries : List Json.Entry) :
    Option (List (Option Document)) :=
  if entries.any fun entry => entry.1.isNone then none
  else
    names.mapM fun name =>
      match entries.filter fun entry => entry.1 == some name with
      | [] => some none
      | [entry] => some (some entry.2)
      | _ => none

def recordFields? (names : List String) : Document → Option (List (Option Document))
  | .object entries => entriesFor? names entries
  | .array items =>
    if names.length < items.length then none
    else some (items.map some ++ List.replicate (names.length - items.length) none)
  | _ => none

def required {α : Type} (read : Reader α) (given : Option Document) : Option α :=
  given.bind read

def defaulting {α : Type} (default : α) (read : Reader α) : Option Document → Option α
  | none => some default
  | some document => read document

def readChoice? : Document → Option (String × Option Document)
  | .text (some name) => some (name, none)
  | .object [(some name, content)] => some (name, some content)
  | _ => none

def readNothing : Option Document → Option Unit
  | none => some ()
  | some .null => some ()
  | some _ => none

def readMemberName : Reader MemberName := fun document => do
  match ← recordFields? ["type", "name"] document with
  | [type, name] => return { type := ← required readText type, name := ← required readText name }
  | _ => none

def readOperand : Reader Operand := fun document => do
  let (name, content) ← readChoice? document
  match name with
  | "constant" => return .constant (← required readConstant content)
  | "local" => return .local (← required readSlot content)
  | "argument" => return .argument (← required readSlot content)
  | "target" => return .target (← required readCount content)
  | "field" => return .field (← required readMemberName content)
  | "method" => return .method (← required readMemberName content)
  | "type" => return .type (← required readText content)
  | _ => none

def readInstruction : Reader Instruction := fun document => do
  match ← recordFields? ["opcode", "operand"] document with
  | [opcode, operand] =>
    return { opcode := ← required readText opcode
             operand? := ← defaulting none (readOptional readOperand) operand }
  | _ => none

def readEvaluator : Reader Evaluator := fun document => do
  let (name, content) ← readChoice? document
  readNothing content
  match name with
  | "convert" => return .convert
  | "data" => return .data
  | _ => none

def readNamed (field : String) : Reader String := fun document => do
  match ← recordFields? [field] document with
  | [given] => required readText given
  | _ => none

def readStore : Reader Intrinsic := fun document => do
  match ← recordFields? ["symbol", "strobe"] document with
  | [symbol, strobe] =>
    return .storeToSymbol (← required readText symbol) (← defaulting false readBool strobe)
  | _ => none

def readIntrinsic : Reader Intrinsic := fun document => do
  let (name, content) ← readChoice? document
  match name with
  | "store_to_symbol" => required readStore content
  | "load_from_symbol" => return .loadFromSymbol (← required (readNamed "symbol") content)
  | "load_to_register" => return .loadToRegister (← required (readNamed "register") content)
  | "always_inline" => (readNothing content).map fun _ => .alwaysInline
  | "use_provided_implementation" =>
    return .useProvided (← required (readNamed "implementation") content)
  | "ignore_implementation" => (readNothing content).map fun _ => .ignore
  | "compile_time_executed" => return .compileTime (← required readEvaluator content)
  | _ => none

def readField : Reader Field := fun document => do
  match ← recordFields? ["name", "type", "static"] document with
  | [name, type, isStatic] =>
    return { name := ← required readText name
             type := ← required readText type
             isStatic := ← defaulting false readBool isStatic }
  | _ => none

def readSubroutine : Reader Subroutine := fun document => do
  let fields ← recordFields?
    ["name", "parameters", "locals", "returns", "entry", "root", "intrinsic", "instructions"]
    document
  match fields with
  | [name, parameters, locals, returns, isEntry, isRoot, intrinsic, instructions] =>
    return { name := ← required readText name
             parameters := ← defaulting [] (readList readText) parameters
             locals := ← defaulting [] (readList readText) locals
             returns := ← defaulting "void" readText returns
             isEntry := ← defaulting false readBool isEntry
             isRoot := ← defaulting false readBool isRoot
             intrinsic? := ← defaulting none (readOptional readIntrinsic) intrinsic
             instructions := ← defaulting [] (readList readInstruction) instructions }
  | _ => none

def readCounts : Reader Counts := fun document => do
  match ← recordFields? ["fields", "subroutines"] document with
  | [fields, subroutines] =>
    return { fields := ← required readCount fields
             subroutines := ← required readCount subroutines }
  | _ => none

def readTypeDecl : Reader TypeDecl := fun document => do
  match ← recordFields? ["name", "base", "fields", "subroutines", "symbols"] document with
  | [name, base, fields, subroutines, counts] =>
    return { name := ← required readText name
             base? := ← defaulting none (readOptional readText) base
             fields := ← defaulting [] (readList readField) fields
             subroutines := ← defaulting [] (readList readSubroutine) subroutines
             counts? := ← defaulting none (readOptional readCounts) counts }
  | _ => none

def readModule : Reader Module := fun document => do
  match ← recordFields? ["types"] document with
  | [types] => return { types := ← defaulting [] (readList readTypeDecl) types }
  | _ => none

def Module.read? (text : List Char) : Option Module :=
  (Document.read? text).bind readModule

end Cartridge.Source
