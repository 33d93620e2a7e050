import Cartridge.Asm.Line
import Cartridge.Memory.Region

/-!
The code that starts the machine.

It masks interrupts, selects binary arithmetic, places the hardware stack and clears the RAM. Each
stretch of at most a page is cleared by a loop on the register X. Counting down ends when X turns
negative, which reaches half a page at most; counting up ends at the length, or when X wraps to
zero after a whole page.
-/

namespace Cartridge.Listing

open Asm (Line Symbol Value)
open Memory (Ram Region)

def entryPoint : Symbol := "__EntryPoint"

def clearDown (label : Symbol) (base : Value) (length : Nat) : List Line :=
  [.immediate .ldx (UInt8.ofNat (length - 1)), .label label, .on .sta .indexedX base, .op .dex,
    .direct .bpl label]

def clearUp (label : Symbol) (base : Value) (length : Nat) : List Line :=
  let limit : List Line :=
    if length < 0x100 then [.immediate .cpx (UInt8.ofNat length)] else []
  [.immediate .ldx 0, .label label, .on .sta .indexedX base, .op .inx] ++ limit ++
    [.direct .bne label]

def clearZeroPage (region : Region) : List Line :=
  let label := entryPoint ++ "_ClearZeroPage"
  let start := region.start.toNat
  let base := Value.byte (UInt8.ofNat start)
  let length := min region.stop.toNat 0x100 - start
  if length = 0 then []
  else if length ≤ 0x80 then clearDown label base length
  else clearUp label base length

/-- The pages from an address up to another, with how much of each lies before the end. The first
starts wherever the region does, and one that is not whole is the last. -/
def pages (start stop : Nat) : List (Nat × Nat) :=
  if start < stop then
    let length := min (stop - start) 0x100
    (start, length) :: if length < 0x100 then [] else pages (start + length) stop
  else
    []
termination_by stop - start

def clearExtended (region : Region) : List Line :=
  (pages region.start.toNat region.stop.toNat).flatMap fun (address, length) =>
    clearUp (entryPoint ++ "_ClearRam_" ++ Text.hexadecimal 4 address)
      (.word (UInt16.ofNat address)) length

def prologue (ram : Ram) : List Line :=
  [.op .sei, .op .cld, .immediate .ldx Memory.stackTop, .op .txs, .immediate .lda 0] ++
    clearZeroPage ram.zeroPage ++ clearExtended ram.extended

end Cartridge.Listing
