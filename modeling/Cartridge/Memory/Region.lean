/-!
The memory of the console.

Variables live in RAM: the part of the zero page that the console has, and the RAM that a cartridge
may bring along.
-/

namespace Cartridge.Memory

/-- The addresses from a start up to, but not including, a stop. -/
structure Region where
  start : UInt16
  stop : UInt16
  deriving DecidableEq, Repr

namespace Region

def free (region : Region) : Nat :=
  (region.stop - region.start).toNat

def drop (region : Region) (size : Nat) : Region :=
  { region with start := region.start + UInt16.ofNat size }

end Region

structure Ram where
  /-- The RAM of the console, which ends with page zero. -/
  zeroPage : Region := { start := 0x80, stop := 0x100 }
  /-- The RAM of the cartridge, empty where there is none. -/
  extended : Region := { start := 0, stop := 0 }
  deriving DecidableEq, Repr

def processor : String := "6502"

def headerFile : String := "vcs.h"

def romOrigin : UInt16 := 0xF000

def vectors : UInt16 := 0xFFFC

def stackTop : UInt8 := 0xFF

end Cartridge.Memory
