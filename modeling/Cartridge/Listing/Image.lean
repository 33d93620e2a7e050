import Cartridge.Listing.Prologue
import Cartridge.Memory.Map
import Cartridge.Program

/-!
The listing of a whole cartridge.

It gives every variable its address, starts with the prologue and the entry subroutine, goes on
with all other subroutines that are called, and ends with the vectors that lead to its start.
-/

namespace Cartridge.Listing

open Asm (Line)
open Memory (Ram)
open Program (CallGraph Subroutine)

structure Image where
  program : Program
  graph : CallGraph
  memory : Memory.Map
  ram : Ram

namespace Image

def emits (image : Image) (subroutine : Subroutine) : Bool :=
  image.graph.contains subroutine.id && subroutine.body?.isSome &&
    subroutine.intrinsic? != some .alwaysInline

def emitted (image : Image) : List Subroutine :=
  image.program.types.subroutines.filter image.emits

end Image

def equates (memory : Memory.Map) : List Line :=
  memory.allocations.map fun allocation =>
    .directive (.equate allocation.symbol allocation.address)

def bodyLines (subroutine : Subroutine) : List Line :=
  match subroutine.body? with
  | some body => body.code ++ body.data
  | none => []

def entryLines (image : Image) : List Line :=
  match image.program.types.subroutine? image.program.entry with
  | some entry => [.label entry.label] ++ prologue image.ram ++ bodyLines entry
  | none => prologue image.ram

def subroutineLines (subroutine : Subroutine) : List Line :=
  [.blank, .comment subroutine.fullName, .label subroutine.label] ++ bodyLines subroutine

def Image.lines (image : Image) : List Line :=
  let others := image.emitted.filter fun subroutine => subroutine.id != image.program.entry
  [.directive (.processor Memory.processor), .directive (.header Memory.headerFile), .blank] ++
    equates image.memory ++
    [.blank, .directive (.origin Memory.romOrigin), .label entryPoint] ++
    entryLines image ++
    others.flatMap subroutineLines ++
    [.blank, .directive (.origin Memory.vectors), .directive (.word entryPoint),
      .directive (.word entryPoint)]

end Cartridge.Listing
