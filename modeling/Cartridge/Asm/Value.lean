import Cartridge.Asm.Mnemonic
import Cartridge.Text.Numeral

/-!
Operand values: literals and references to symbols, as the assembler writes them.

Symbols stay unevaluated, since only the assembler knows where they end up. Bytes are written in
decimal and words as four hexadecimal digits; both readings of a literal depend on its radix.
-/

namespace Cartridge.Asm

abbrev Symbol := String

inductive Value where
  | byte (n : UInt8)
  | word (n : UInt16)
  | symbol (name : Symbol)
  /-- The address some bytes after a symbol. -/
  | offset (name : Symbol) (distance : UInt8)
  | lowByte (name : Symbol)
  | highByte (name : Symbol)
  deriving DecidableEq, Repr

namespace Value

/-- Byte `k` of an object of the given size that resides at a symbol. The distance is written in
eight bits. -/
def byteOf (name : Symbol) (k size : Nat) : Value :=
  if size = 1 ∨ k = 0 then .symbol name else .offset name (UInt8.ofNat k)

def symbol? : Value → Option Symbol
  | .byte _ => none
  | .word _ => none
  | .symbol name => some name
  | .offset name _ => some name
  | .lowByte name => some name
  | .highByte name => some name

def mapSymbol (rename : Symbol → Symbol) : Value → Value
  | .byte n => .byte n
  | .word n => .word n
  | .symbol name => .symbol (rename name)
  | .offset name distance => .offset (rename name) distance
  | .lowByte name => .lowByte (rename name)
  | .highByte name => .highByte (rename name)

def render : Value → String
  | .byte n => Text.decimal n.toNat
  | .word n => "$" ++ Text.hexadecimal 4 n.toNat
  | .symbol name => name
  | .offset name distance => name ++ "+" ++ Text.decimal distance.toNat
  | .lowByte name => "<" ++ name
  | .highByte name => ">" ++ name

def isDigit (c : Char) : Bool :=
  '0' ≤ c && c ≤ '9'

def isSymbolChar (c : Char) : Bool :=
  c.isAlphanum || c == '_' || c == '.'

def isSymbolText : List Char → Bool
  | [] => false
  | first :: rest => !isDigit first && (first :: rest).all isSymbolChar

def readSymbol? (text : List Char) : Option Symbol :=
  let text := Text.trim text
  if isSymbolText text then some (String.ofList text) else none

def literal (wide : Bool) (number : Nat) : Value :=
  if wide then .word (UInt16.ofNat number) else .byte (UInt8.ofNat number)

/-- A hexadecimal literal is a word when it is written with more than two characters. -/
def readHexadecimal? (digits : List Char) : Option Value :=
  (Text.readNumeral? 16 0xFFFF digits).map (literal (2 < digits.length))

/-- Other literals are words when they do not fit in a byte. -/
def readLiteral? (radix : Nat) (digits : List Char) : Option Value :=
  (Text.readNumeral? radix 0xFFFF digits).map fun number => literal (0xFF < number) number

def readOffset? (text distance : List Char) : Option Value :=
  match readSymbol? text, Text.readNumeral? 10 0xFF (Text.trim distance) with
  | some name, some distance => some (.offset name (UInt8.ofNat distance))
  | _, _ => none

/-- Reads a value that has no blanks around it. The first character decides between the forms that
have a mark in front, and a plus sign further on makes an offset. -/
def readTrimmed? : List Char → Option Value
  | '$' :: digits => readHexadecimal? digits
  | '%' :: digits => readLiteral? 2 digits
  | '<' :: rest => (readSymbol? rest).map .lowByte
  | '>' :: rest => (readSymbol? rest).map .highByte
  | text =>
    if text.head?.any isDigit then readLiteral? 10 text
    else
      match Text.splitAtFirst? '+' text with
      | some (front, back) => readOffset? front back
      | none => (readSymbol? text).map .symbol

def read (text : List Char) : Except ReadError Value :=
  match readTrimmed? (Text.trim text) with
  | some value => .ok value
  | none => .error (.value (String.ofList text))

end Value

end Cartridge.Asm
