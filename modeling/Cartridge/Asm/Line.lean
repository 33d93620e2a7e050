import Cartridge.Asm.Instruction

/-!
Lines of an assembly listing and their text.

Instructions and directives are indented by a tab, with the operand after a column of at least
seven characters; labels and equates stand at the margin.
-/

namespace Cartridge.Asm

inductive Directive where
  | processor (name : String)
  | header (file : String)
  | origin (address : UInt16)
  /-- Gives a symbol an address. -/
  | equate (symbol : Symbol) (address : UInt16)
  /-- A word that holds the address of a symbol. -/
  | word (symbol : Symbol)
  /-- A table of literal bytes. -/
  | bytes (table : List UInt8)
  deriving DecidableEq, Repr

inductive Line where
  | directive (content : Directive)
  | label (symbol : Symbol)
  | instruction (content : Instruction)
  | comment (text : String)
  | blank
  deriving DecidableEq, Repr

def columns (operation argument : String) : String :=
  "\t" ++ Text.padRight 7 operation ++ " " ++ argument

def Directive.render : Directive → String
  | .processor name => columns "processor" name
  | .header file => columns "include" ("\"" ++ file ++ "\"")
  | .origin address => columns "org" ("$" ++ Text.hexadecimal 4 address.toNat)
  | .equate symbol address => symbol ++ " = $" ++ Text.hexadecimal 2 address.toNat
  | .word symbol => columns ".word" symbol
  | .bytes table =>
    columns ".byte" (", ".intercalate (table.map fun byte => Text.decimal byte.toNat))

namespace Line

def op (mnemonic : Mnemonic) : Line :=
  .instruction { mnemonic }

def on (mnemonic : Mnemonic) (mode : Mode) (value : Value) : Line :=
  .instruction { mnemonic, operand := .addressed mode value }

def immediate (mnemonic : Mnemonic) (byte : UInt8) : Line :=
  .on mnemonic .immediate (.byte byte)

def direct (mnemonic : Mnemonic) (symbol : Symbol) : Line :=
  .on mnemonic .direct (.symbol symbol)

def mnemonic? : Line → Option Mnemonic
  | .instruction content => some content.mnemonic
  | _ => none

def isInstruction : Line → Bool
  | .instruction _ => true
  | _ => false

def label? : Line → Option Symbol
  | .label symbol => some symbol
  | _ => none

def render : Line → String
  | .directive content => content.render
  | .label symbol => symbol
  | .instruction { mnemonic, operand := .implied } => "\t" ++ mnemonic.name
  | .instruction { mnemonic, operand } => columns mnemonic.name operand.render
  | .comment text => "; " ++ text
  | .blank => ""

end Line

def renderListing (lines : List Line) : String :=
  String.join (lines.map fun line => line.render ++ "\n")

def definedLabels (lines : List Line) : List Symbol :=
  lines.filterMap Line.label?

end Cartridge.Asm
