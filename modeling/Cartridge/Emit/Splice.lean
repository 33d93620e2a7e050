import Cartridge.Program.Subroutine

/-!
Bodies copied to where they would be called.

The copy's own labels get the name of the place appended, so that several copies stay apart. A
return at the end is dropped, since control leaves the copy there anyway; any other return becomes
a jump to a label behind the copy.
-/

namespace Cartridge.Emit

open Asm (Line Symbol)
open Program (Body)

def bodyLabels (body : Body) : List Symbol :=
  Asm.definedLabels body.code ++ Asm.definedLabels body.data

/-- The name of a symbol in a copy: labels of the body itself are renamed. -/
def renameAt (place : Symbol) (labels : List Symbol) (symbol : Symbol) : Symbol :=
  if labels.contains symbol then symbol ++ "_" ++ place else symbol

def relabel (rename : Symbol → Symbol) : Line → Line
  | .label symbol => .label (rename symbol)
  | .instruction content =>
    .instruction { content with operand := content.operand.mapValue (·.mapSymbol rename) }
  | line => line

def isReturn (line : Line) : Bool :=
  line.mnemonic? == some .rts

def dropFirstReturn : List Line → List Line
  | [] => []
  | line :: rest =>
    if line.isInstruction then
      if isReturn line then rest else line :: rest
    else line :: dropFirstReturn rest

def dropLastReturn (code : List Line) : List Line :=
  (dropFirstReturn code.reverse).reverse

def spliceEnd (place : Symbol) : Symbol :=
  place ++ "_End"

def spliceLine (place : Symbol) (rename : Symbol → Symbol) (line : Line) : Line :=
  if isReturn line then .direct .jmp (spliceEnd place) else relabel rename line

def splice (place : Symbol) (body : Body) : Body :=
  let rename := renameAt place (bodyLabels body)
  let kept := dropLastReturn body.code
  let behind := if kept.any isReturn then [Line.label (spliceEnd place)] else []
  { code := kept.map (spliceLine place rename) ++ behind
    data := body.data.map (relabel rename) }

end Cartridge.Emit
