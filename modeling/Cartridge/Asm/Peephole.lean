import Cartridge.Asm.Line

/-!
Removal of stack traffic that undoes itself.

Two neighbouring instructions are redundant in two ways: a push followed by a pull, where both go,
and a store followed by a load of the same place, where the load goes. One pass from left to right
keeps the lines written so far, newest first, so that a removal exposes the line before it to the
next one.
-/

namespace Cartridge.Asm.Peephole

def isPushPull : Line → Line → Bool
  | .instruction first, .instruction second =>
    first.mnemonic == .pha && second.mnemonic == .pla
  | _, _ => false

def isStoreLoad : Line → Line → Bool
  | .instruction first, .instruction second =>
    first.mnemonic == .sta && second.mnemonic == .lda && first.operand.isMemory &&
      first.operand == second.operand
  | _, _ => false

def add : List Line → Line → List Line
  | [], line => [line]
  | last :: written, line =>
    if isPushPull last line then written
    else if isStoreLoad last line then last :: written
    else line :: last :: written

def optimize (lines : List Line) : List Line :=
  (lines.foldl add []).reverse

end Cartridge.Asm.Peephole
