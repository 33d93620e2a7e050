import Cartridge.Layout.Reference
import Cartridge.Program.Fault

/-!
The names of a module and the types they stand for.

Types may be declared in any order, so each is resolved on demand: its base first and then the
types of its instance fields. A type that is met again while it is being resolved is refused, even
behind a pointer, because a pointer carries the layout of what it points to.
-/

namespace Cartridge.Program

inductive Origin where
  | builtin (kind : Primitive)
  | declared (decl : Source.TypeDecl)

namespace Origin

def name : Origin → String
  | .builtin kind => kind.name
  | .declared decl => decl.name

def fieldNames : Origin → List String
  | .builtin _ => []
  | .declared decl => decl.fields.map (·.name)

def subroutineNames : Origin → List String
  | .builtin _ => []
  | .declared decl => decl.subroutines.map (·.name)

/-- The name of the base; a declared type that gives none extends `object`. -/
def baseName? : Origin → Option String
  | .builtin kind => kind.base?.map Primitive.name
  | .declared decl => some (decl.base?.getD Primitive.object.name)

end Origin

/-- The types of a module, built-in ones first. A type's id is its position. -/
def originsOf (module : Source.Module) : List Origin :=
  Primitive.all.map .builtin ++ module.types.map .declared

def checkMembers (type : String) : List String → List String → Except Fault Unit
  | _, [] => .ok ()
  | seen, name :: rest =>
    if seen.contains name then .error (.duplicateMember type name)
    else checkMembers type (name :: seen) rest

/-- Refuses the first type whose name an earlier one has, or whose members share one. -/
def checkNames : List String → List Origin → Except Fault Unit
  | _, [] => .ok ()
  | seen, origin :: rest =>
    if seen.contains origin.name then .error (.duplicateType origin.name)
    else do
      checkMembers origin.name [] origin.fieldNames
      checkMembers origin.name [] origin.subroutineNames
      checkNames (origin.name :: seen) rest

def findOrigin? (origins : List Origin) (name : String) : Option (Origin × TypeId) :=
  origins.zipIdx.find? fun entry => entry.1.name == name

def findOrigin (origins : List Origin) (name : String) : Except Fault (Origin × TypeId) :=
  match findOrigin? origins name with
  | some found => .ok found
  | none => .error (.unresolvedType name)

abbrev Resolved := List (TypeId × ValueType)

/-- Resolution remembers the types it has resolved and stops at the first fault. -/
abbrev Resolution := StateT Resolved (Except Fault)

def resolveField (named : String → Resolution ValueType) (field : Source.Field) :
    Resolution (Option (String × ValueType)) :=
  if field.isStatic then return none
  else do
    let type ← (TypeReference.read field.type.toList).resolve named
    return some (field.name, type)

/-- The layout of a declared type. A base that is no record adds no fields. -/
def resolveDeclared (named : String → Resolution ValueType) (decl : Source.TypeDecl) :
    Resolution ValueType := do
  let base ← named (decl.base?.getD Primitive.object.name)
  let base? := match base with
    | .record layout => some layout
    | _ => none
  let fields ← decl.fields.mapM (resolveField named)
  return .record (Layout.extend decl.name base? (fields.filterMap id))

/-- Resolves a type inside those that are being resolved already. The depth bounds how many more
may be nested; as those are distinct types, one more than there are types suffices. -/
def resolveType (origins : List Origin) :
    Nat → List TypeId → Origin × TypeId → Resolution ValueType
  | 0, _, (origin, _) => throw (.recursiveLayout origin.name)
  | depth + 1, inProgress, (origin, id) => do
    match (← get).lookup id with
    | some value => return value
    | none =>
      if inProgress.contains id then throw (.recursiveLayout origin.name)
      let value ← match origin with
        | .builtin kind => pure (.primitive kind)
        | .declared decl =>
          resolveDeclared
            (fun name => do
              resolveType origins depth (id :: inProgress) (← findOrigin origins name))
            decl
      modify ((id, value) :: ·)
      return value

structure Scope where
  origins : List Origin
  values : List ValueType

namespace Scope

def ofModule (module : Source.Module) : Except Fault Scope := do
  let origins := originsOf module
  checkNames [] origins
  let (values, _) ← (origins.zipIdx.mapM (resolveType origins (origins.length + 1) [])).run []
  return { origins, values }

def named (scope : Scope) (name : String) : Except Fault ValueType := do
  let (_, id) ← findOrigin scope.origins name
  match scope.values[id]? with
  | some value => return value
  | none => throw (.unresolvedType name)

def valueType (scope : Scope) (reference : String) : Except Fault ValueType :=
  (TypeReference.read reference.toList).resolve scope.named

/-- The base of a type, which only `object` lacks. -/
def base? (scope : Scope) (id : TypeId) : Option TypeId := do
  let origin ← scope.origins[id]?
  let (_, base) ← findOrigin? scope.origins (← origin.baseName?)
  return base

/-- Looks for a member in a type and then in its bases, over at most so many types. -/
def findMember? (scope : Scope) (members : Origin → List String) (name : String) :
    Nat → TypeId → Option (TypeId × Nat)
  | 0, _ => none
  | steps + 1, id =>
    match scope.origins[id]? with
    | none => none
    | some origin =>
      match (members origin).findIdx? (· == name) with
      | some index => some (id, index)
      | none =>
        match scope.base? id with
        | some base => scope.findMember? members name steps base
        | none => none

def member? (scope : Scope) (members : Origin → List String) (member : Source.MemberName) :
    Option (TypeId × Nat) := do
  let (_, id) ← findOrigin? scope.origins member.type
  scope.findMember? members member.name scope.origins.length id

def field (scope : Scope) (member : Source.MemberName) : Except Fault FieldId :=
  match scope.member? Origin.fieldNames member with
  | some (owner, index) => .ok { owner, index }
  | none => .error (.unresolvedField member.type member.name)

def subroutine (scope : Scope) (member : Source.MemberName) : Except Fault SubroutineId :=
  match scope.member? Origin.subroutineNames member with
  | some (owner, index) => .ok { owner, index }
  | none => .error (.unresolvedSubroutine member.type member.name)

end Scope

end Cartridge.Program
