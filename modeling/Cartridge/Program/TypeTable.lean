import Cartridge.Program.Subroutine

/-!
The table of all declared types.

Types are only ever appended or replaced in place, and an index tells the id of each name. An update
yields a new table and leaves the one it was made from as it was, so that every earlier state stays
at hand; a replacement shares the index with the table before it.
-/

namespace Cartridge.Program

inductive TableError where
  | duplicate (name : String)
  | outOfOrder (name : String) (expected : Nat)
  | missingType (name : String)
  | missingSubroutine (fullName : String)
  deriving DecidableEq, Repr

def TableError.message : TableError → String
  | .duplicate name => s!"Type `{name}` is already present"
  | .outOfOrder name expected =>
    s!"Type `{name}` was added out of order (expected id " ++ Text.decimal expected ++ ")"
  | .missingType name => s!"Type `{name}` was not previously added"
  | .missingSubroutine fullName =>
    s!"Subroutine `{fullName}` is not a member of its declaring type"

structure TypeTable where
  types : List DeclaredType := []
  names : List (String × TypeId) := []

namespace TypeTable

def size (table : TypeTable) : Nat :=
  table.types.length

def nextId (table : TypeTable) : TypeId :=
  table.size

def get? (table : TypeTable) (id : TypeId) : Option DeclaredType :=
  table.types[id]?

def lookup? (table : TypeTable) (name : String) : Option DeclaredType := do
  table.get? (← table.names.lookup name)

def subroutine? (table : TypeTable) (id : SubroutineId) : Option Subroutine := do
  (← table.get? id.owner).subroutines[id.index]?

def field? (table : TypeTable) (id : FieldId) : Option Field := do
  (← table.get? id.owner).fields[id.index]?

def subroutines (table : TypeTable) : List Subroutine :=
  table.types.flatMap (·.subroutines)

def add (table : TypeTable) (type : DeclaredType) : Except TableError TypeTable :=
  if (table.names.lookup type.name).isSome then .error (.duplicate type.name)
  else if type.id ≠ table.nextId then .error (.outOfOrder type.name table.nextId)
  else .ok { types := table.types ++ [type], names := (type.name, type.id) :: table.names }

def replaceType (table : TypeTable) (type : DeclaredType) : Except TableError TypeTable :=
  match table.get? type.id with
  | some present =>
    if present.name = type.name then .ok { table with types := table.types.set type.id type }
    else .error (.missingType type.name)
  | none => .error (.missingType type.name)

def replaceSubroutine (table : TypeTable) (subroutine : Subroutine) :
    Except TableError TypeTable :=
  match table.get? subroutine.id.owner with
  | none => .error (.missingSubroutine subroutine.fullName)
  | some type =>
    match type.subroutines[subroutine.id.index]? with
    | none => .error (.missingSubroutine subroutine.fullName)
    | some present =>
      if present.name = subroutine.name then
        table.replaceType
          { type with subroutines := type.subroutines.set subroutine.id.index subroutine }
      else .error (.missingSubroutine subroutine.fullName)

end TypeTable

end Cartridge.Program
