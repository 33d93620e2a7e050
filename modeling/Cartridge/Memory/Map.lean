import Cartridge.Memory.Region
import Cartridge.Program.CallGraph

/-!
Fixed addresses for everything that a program keeps in memory.

As no subroutine is ever active twice, parameters and locals get addresses once and for all, just
like static fields. Each slot goes into the zero page while that has room, and otherwise into the
extended region.
-/

namespace Cartridge.Memory

open Program (Fault TypeTable CallGraph Subroutine)

inductive Slot where
  | field (id : FieldId)
  | argument (subroutine : SubroutineId) (n : UInt16)
  | local (subroutine : SubroutineId) (n : UInt16)
  deriving DecidableEq, Repr

/-- What an address is asked for. Temporaries have no slot. -/
structure Request where
  slot? : Option Slot := none
  symbol : Asm.Symbol
  size : Nat
  deriving DecidableEq, Repr

structure Allocation where
  symbol : Asm.Symbol
  address : UInt16
  size : Nat
  deriving DecidableEq, Repr

def Allocation.isZeroPage (allocation : Allocation) : Bool :=
  allocation.address < 0x100

/-- All allocations in the order in which they were made, and beside them the position of each
slot's allocation. The latest entry of a slot comes first. -/
structure Map where
  allocations : List Allocation := []
  slots : List (Slot × Nat) := []
  deriving DecidableEq, Repr

structure Allocator where
  ram : Ram
  map : Map := {}

def temporary (n : Nat) : Asm.Symbol :=
  "TEMP" ++ Text.decimal n

def temporaryRequests : List Request :=
  (List.range 2).map fun n => { symbol := temporary n, size := 1 }

def fieldRequests (types : TypeTable) : List Request :=
  types.types.flatMap fun type =>
    (type.fields.filter (·.isStatic)).map fun field =>
      { slot? := some (.field field.id)
        symbol := Asm.mangle (type.name ++ "_" ++ field.name)
        size := field.type.size }

/-- The parameters of a subroutine and then its locals. Slots are numbered in sixteen bits. -/
def subroutineRequests (subroutine : Subroutine) : List Request :=
  let label := subroutine.label
  (subroutine.parameters.zipIdx.map fun (type, n) =>
    { slot? := some (.argument subroutine.id (UInt16.ofNat n))
      symbol := label ++ "_P" ++ Text.decimal n
      size := type.size }) ++
  subroutine.locals.zipIdx.map fun (type, n) =>
    { slot? := some (.local subroutine.id (UInt16.ofNat n))
      symbol := label ++ "_L" ++ Text.decimal n
      size := type.size }

def hasSlots (graph : CallGraph) (subroutine : Subroutine) : Bool :=
  !subroutine.replacesCall && graph.contains subroutine.id

def requests (types : TypeTable) (graph : CallGraph) : List Request :=
  temporaryRequests ++ fieldRequests types ++
    (types.subroutines.filter (hasSlots graph)).flatMap subroutineRequests

/-- What is left of the RAM after taking bytes from the first region with room for them, and the
address of those bytes. -/
def Ram.take? (ram : Ram) (size : Nat) : Option (UInt16 × Ram) :=
  if size ≤ ram.zeroPage.free then
    some (ram.zeroPage.start, { ram with zeroPage := ram.zeroPage.drop size })
  else if size ≤ ram.extended.free then
    some (ram.extended.start, { ram with extended := ram.extended.drop size })
  else none

def Map.add (map : Map) (slot? : Option Slot) (allocation : Allocation) : Map :=
  { allocations := map.allocations ++ [allocation]
    slots :=
      match slot? with
      | some slot => (slot, map.allocations.length) :: map.slots
      | none => map.slots }

def Allocator.allocate (allocator : Allocator) (request : Request) : Except Fault Allocator :=
  match allocator.ram.take? request.size with
  | none => .error (.outOfMemory request.symbol request.size)
  | some (address, ram) =>
    .ok { ram
          map := allocator.map.add request.slot?
            { symbol := request.symbol, address, size := request.size } }

namespace Map

def allocate (types : TypeTable) (graph : CallGraph) (ram : Ram) : Except Fault Map :=
  if 0x100 < ram.zeroPage.stop then
    .error (.zeroPageRange ram.zeroPage.start ram.zeroPage.stop)
  else do
    let allocator ← (requests types graph).foldlM Allocator.allocate { ram }
    return allocator.map

def find? (map : Map) (slot : Slot) : Option Allocation := do
  map.allocations[← map.slots.lookup slot]?

def field? (map : Map) (id : FieldId) : Option Allocation :=
  map.find? (.field id)

def argument? (map : Map) (subroutine : SubroutineId) (n : UInt16) : Option Allocation :=
  map.find? (.argument subroutine n)

def local? (map : Map) (subroutine : SubroutineId) (n : UInt16) : Option Allocation :=
  map.find? (.local subroutine n)

end Map

end Cartridge.Memory
