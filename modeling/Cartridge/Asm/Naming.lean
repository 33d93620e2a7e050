import Cartridge.Asm.Value

/-!
Assembler symbols for qualified names.

A symbol keeps the letters and digits of ASCII and the low line. A run of colons becomes a single
low line, and any other character becomes one of its own.
-/

namespace Cartridge.Asm

def isPlainChar (c : Char) : Bool :=
  c.isAlphanum || c == '_'

/-- The flag tells that the character before was a colon. -/
def manglePart : Bool → List Char → List Char
  | _, [] => []
  | afterColon, c :: rest =>
    if c = ':' then
      if afterColon then manglePart true rest else '_' :: manglePart true rest
    else if isPlainChar c then c :: manglePart false rest
    else '_' :: manglePart false rest

def mangle (name : String) : Symbol :=
  String.ofList (manglePart false name.toList)

end Cartridge.Asm
