import Cartridge.Text.Numeral

/-!
Types of values, with the space they take.

A value occupies whole bytes in memory and on the evaluation stack. Pointers take one byte when
they stay in the zero page and two otherwise. The fields of a record follow one another without
gaps, those of its base first, and a record ends where its furthest field does.
-/

namespace Cartridge

inductive Primitive where
  | object
  | value
  | void
  | byte
  | bool
  deriving DecidableEq, Repr

namespace Primitive

def all : List Primitive := [.object, .value, .void, .byte, .bool]

def name : Primitive → String
  | .object => "object"
  | .value => "value"
  | .void => "void"
  | .byte => "byte"
  | .bool => "bool"

def size : Primitive → Nat
  | .byte => 1
  | .bool => 1
  | _ => 0

def base? : Primitive → Option Primitive
  | .object => none
  | .value => some .object
  | _ => some .value

end Primitive

mutual

inductive ValueType where
  | primitive (kind : Primitive)
  | record (layout : Layout)
  /-- The address of a value, in one byte when that lies in the zero page. -/
  | pointer (target : ValueType) (zeroPage : Bool)
  /-- A value known when compiling. -/
  | constant (bytes : List UInt8) (type : ValueType)

structure Layout where
  name : String
  /-- The bytes of the fields that the base does not have. -/
  ownSize : Nat
  /-- All instance fields, inherited ones first. -/
  fields : List FieldLayout

structure FieldLayout where
  name : String
  type : ValueType
  offset : Nat

end

mutual

def ValueType.size : ValueType → Nat
  | .primitive kind => kind.size
  | .record layout => layout.size
  | .pointer _ true => 1
  | .pointer _ false => 2
  | .constant _ type => type.size

def Layout.size : Layout → Nat
  | ⟨_, _, fields⟩ => Layout.furthest fields

def Layout.furthest : List FieldLayout → Nat
  | [] => 0
  | field :: rest => max field.stop (Layout.furthest rest)

def FieldLayout.stop : FieldLayout → Nat
  | ⟨_, type, offset⟩ => offset + type.size

end

namespace ValueType

def byte : ValueType := .primitive .byte

def bool : ValueType := .primitive .bool

def name : ValueType → String
  | .primitive kind => kind.name
  | .record layout => layout.name
  | .pointer target true => "\x7bzp\x7d" ++ target.name ++ "*"
  | .pointer target false => target.name ++ "*"
  | .constant _ type => "const " ++ type.name

def fields : ValueType → List FieldLayout
  | .record layout => layout.fields
  | .constant _ type => type.fields
  | _ => []

/-- A value without bytes is never pushed. -/
def isVoid (type : ValueType) : Bool :=
  type.size == 0

end ValueType

def totalSize : List ValueType → Nat
  | [] => 0
  | type :: rest => type.size + totalSize rest

def placeFields : Nat → List (String × ValueType) → List FieldLayout
  | _, [] => []
  | offset, (name, type) :: rest =>
    { name, type, offset } :: placeFields (offset + type.size) rest

namespace Layout

def extend (name : String) (base? : Option Layout) (fields : List (String × ValueType)) :
    Layout :=
  let inherited := (base?.map Layout.fields).getD []
  let start := (base?.map Layout.size).getD 0
  { name
    ownSize := totalSize (fields.map (·.2))
    fields := inherited ++ placeFields start fields }

def find? (layout : Layout) (name : String) : Option FieldLayout :=
  layout.fields.find? fun field => field.name == name

end Layout

end Cartridge
