/-!
Cutting text into lines and at fixed markers, and comparing it without regard to ASCII case.
-/

namespace Cartridge.Text

def upper (text : List Char) : List Char :=
  text.map Char.toUpper

/-- What precedes a closing marker at the end of the text. The marker is given in upper case and
matches letters of either case. -/
def before? (closing text : List Char) : Option (List Char) :=
  let kept := text.length - closing.length
  if closing.length ≤ text.length && upper (text.drop kept) == closing then
    some (text.take kept)
  else none

def splitAtFirst? (mark : Char) : List Char → Option (List Char × List Char)
  | [] => none
  | c :: rest =>
    if c = mark then some ([], rest)
    else
      match splitAtFirst? mark rest with
      | some (front, back) => some (c :: front, back)
      | none => none

/-- The lines of a text. A line feed ends a line, so a final one opens no further line. -/
def lines : List Char → List (List Char)
  | [] => []
  | c :: rest =>
    if c = '\n' then [] :: lines rest
    else
      match lines rest with
      | [] => [[c]]
      | line :: more => (c :: line) :: more

/-- Blanks after the text up to a least width; longer texts are kept whole. -/
def padRight (width : Nat) (text : String) : String :=
  text ++ String.ofList (List.replicate (width - text.length) ' ')

end Cartridge.Text
