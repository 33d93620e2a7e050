import Cartridge.Asm.Value

/-!
Operands and instructions of the 6502 in their textual form.

An operand is absent or an addressing mode around a value. Reading tries the modes in a fixed
order, on text whose index registers may be written in either case; a lone `A` names the
accumulator and reads as no operand.
-/

namespace Cartridge.Asm

inductive Mode where
  | immediate
  /-- Zero page or absolute, as the assembler decides. -/
  | direct
  | indexedX
  | indexedY
  | indirect
  | indirectX
  | indirectY
  deriving DecidableEq, Repr

def Mode.surround (value : String) : Mode → String
  | .immediate => "#" ++ value
  | .direct => value
  | .indexedX => value ++ ",X"
  | .indexedY => value ++ ",Y"
  | .indirect => "(" ++ value ++ ")"
  | .indirectX => "(" ++ value ++ ",X)"
  | .indirectY => "(" ++ value ++ "),Y"

inductive Operand where
  | implied
  | addressed (mode : Mode) (value : Value)
  deriving DecidableEq, Repr

namespace Operand

def value? : Operand → Option Value
  | .implied => none
  | .addressed _ value => some value

def mapValue (change : Value → Value) : Operand → Operand
  | .implied => .implied
  | .addressed mode value => .addressed mode (change value)

def isMemory : Operand → Bool
  | .implied => false
  | .addressed .immediate _ => false
  | .addressed _ _ => true

def render : Operand → String
  | .implied => ""
  | .addressed mode value => mode.surround value.render

def addressedBy (mode : Mode) (text : List Char) : Except ReadError Operand :=
  (Value.read text).map (.addressed mode)

def readIndexed (text : List Char) : Except ReadError Operand :=
  match Text.before? [',', 'X'] text with
  | some value => addressedBy .indexedX value
  | none =>
    match Text.before? [',', 'Y'] text with
    | some value => addressedBy .indexedY value
    | none => addressedBy .direct text

/-- The forms that open a parenthesis. One that is never closed is read like any other text. -/
def readParenthesised (inner : List Char) : Except ReadError Operand :=
  match Text.before? [',', 'X', ')'] inner with
  | some value => addressedBy .indirectX value
  | none =>
    match Text.before? [')', ',', 'Y'] inner with
    | some value => addressedBy .indirectY value
    | none =>
      match Text.before? [')'] inner with
      | some value => addressedBy .indirect value
      | none => readIndexed ('(' :: inner)

def readTrimmed : List Char → Except ReadError Operand
  | [] => .ok .implied
  | ['A'] => .ok .implied
  | ['a'] => .ok .implied
  | '#' :: value => addressedBy .immediate value
  | '(' :: inner => readParenthesised inner
  | text => readIndexed text

def read (text : List Char) : Except ReadError Operand :=
  readTrimmed (Text.trim text)

end Operand

structure Instruction where
  mnemonic : Mnemonic
  operand : Operand := .implied
  deriving DecidableEq, Repr

namespace Instruction

def render (instruction : Instruction) : String :=
  match instruction.operand with
  | .implied => instruction.mnemonic.name
  | operand => instruction.mnemonic.name ++ " " ++ operand.render

/-- The first word is the mnemonic and all that follows it the operand. A bad mnemonic is
reported before a bad operand. -/
def read (text : List Char) : Except ReadError Instruction := do
  let text := Text.trim text
  let mnemonic ← Mnemonic.read (Text.firstWord text)
  let operand ← Operand.read (Text.afterFirstWord text)
  return { mnemonic, operand }

end Instruction

end Cartridge.Asm
