import Cartridge.Code.StackTracker
import Cartridge.Memory.Map

/-!
Fragments of assembly and the state of the evaluation stack around them.

Values pass through the accumulator and the hardware stack one byte at a time. A value of several
bytes is pushed from its first byte to its last and pulled in the opposite order.
-/

namespace Cartridge.Emit

open Asm (Line Symbol Value)
open Code (EvalStack)
open Program (Fault Field Obstacle Subroutine TypeTable)

structure Site where
  types : TypeTable
  memory : Memory.Map
  subroutine : Subroutine

/-- The code for one action, with the evaluation stack after it and the number of labels that the
subroutine has numbered so far. -/
structure Fragment where
  code : List Line := []
  data : List Line := []
  stack : EvalStack
  labels : Nat

namespace Site

def unsupported {α : Type} (site : Site) (index : Nat) (obstacle : Obstacle) : Except Fault α :=
  .error (.unsupported site.subroutine.fullName index obstacle)

def instructionLabel (site : Site) (index : Nat) : Symbol :=
  site.subroutine.label ++ "_IL_" ++ Text.paddedDecimal 4 index

/-- A label of this subroutine that its number tells from all others. -/
def numberedLabel (site : Site) (stem : String) (number : Nat) : Symbol :=
  site.subroutine.label ++ "_" ++ stem ++ "_" ++ Text.decimal number

def pop (site : Site) (index : Nat) : EvalStack → Except Fault (ValueType × EvalStack)
  | [] => .error (.stackUnderflow site.subroutine.fullName index)
  | top :: rest => .ok (top, rest)

def popByte (site : Site) (index : Nat) (stack : EvalStack) : Except Fault EvalStack := do
  let (type, rest) ← site.pop index stack
  if type.size = 1 then return rest
  else site.unsupported index (.wideOperand type.name)

def popAddress (site : Site) (index : Nat) (stack : EvalStack) : Except Fault EvalStack := do
  -- Objects lie in the zero page, so that their addresses are single bytes too.
  let (type, rest) ← site.pop index stack
  if type.size = 1 then return rest
  else site.unsupported index (.notAddress type.name)

def byteOffset (site : Site) (index offset : Nat) : Except Fault UInt8 :=
  if offset ≤ 0xFF then .ok (UInt8.ofNat offset)
  else site.unsupported index (.wideOffset offset)

end Site

def loadLines (symbol : Symbol) (size : Nat) : List Line :=
  (List.range size).flatMap fun k =>
    [.on .lda .direct (Value.byteOf symbol k size), .op .pha]

def storeLines (symbol : Symbol) (size : Nat) : List Line :=
  (List.range size).reverse.flatMap fun k =>
    [.op .pla, .on .sta .direct (Value.byteOf symbol k size)]

def indexedByte (offset : Nat) : Value :=
  .byte (UInt8.ofNat offset)

end Cartridge.Emit
