import Cartridge.Asm.Line

/-!
Libraries of hand-written routines.

A library's text holds implementations, each between `.impl NAME` and `.end`, with a label (its
name and a colon) or an instruction on every line. A semicolon starts a comment, and blank lines
count only for the numbering. The first malformed line ends the reading.
-/

namespace Cartridge.Asm

inductive LibraryProblem where
  | nested (name enclosing : String)
  | unnamed
  | outside (text : String)
  | unreadable (error : ReadError)
  | unclosed (name : String)
  deriving DecidableEq, Repr

def LibraryProblem.message : LibraryProblem → String
  | .nested name enclosing => s!"`.impl {name}` inside `.impl {enclosing}`"
  | .unnamed => "expected an implementation name"
  | .outside text => s!"`{text}` outside of any `.impl`"
  | .unreadable error => error.message
  | .unclosed name => s!"`.impl {name}` is never closed"

inductive LibraryError where
  | malformed (line : Nat) (problem : LibraryProblem)
  | duplicate (name : String)
  deriving DecidableEq, Repr

def LibraryError.message : LibraryError → String
  | .malformed line problem => "Line " ++ Text.decimal line ++ ": " ++ problem.message
  | .duplicate name => s!"Implementation `{name}` is defined more than once"

structure Implementation where
  name : String
  lines : List Line
  deriving DecidableEq, Repr

structure Library where
  implementations : List Implementation := []
  deriving DecidableEq, Repr

namespace Library

def find? (library : Library) (name : String) : Option Implementation :=
  library.implementations.find? fun implementation => implementation.name == name

def get? (library : Library) (name : String) : Option (List Line) :=
  (library.find? name).map (·.lines)

def size (library : Library) : Nat :=
  library.implementations.length

/-- How far the reading has come: the finished implementations and the one still open, whose lines
stand last first. -/
structure Progress where
  finished : Library
  current? : Option Implementation

def codeOf (line : List Char) : List Char :=
  match Text.splitAtFirst? ';' line with
  | some (code, _) => Text.trim code
  | none => Text.trim line

def readBodyLine (number : Nat) (code : List Char) : Except LibraryError Line :=
  match Text.before? [':'] code with
  | some label => .ok (.label (String.ofList (Text.trim label)))
  | none =>
    match Instruction.read code with
    | .ok instruction => .ok (.instruction instruction)
    | .error error => .error (.malformed number (.unreadable error))

def openImplementation (number : Nat) (name : List Char) (progress : Progress) :
    Except LibraryError Progress :=
  let name := String.ofList (Text.trim name)
  match progress.current? with
  | some enclosing => .error (.malformed number (.nested name enclosing.name))
  | none =>
    if name.isEmpty then .error (.malformed number .unnamed)
    else .ok { progress with current? := some { name, lines := [] } }

def closeImplementation (current : Implementation) (finished : Library) :
    Except LibraryError Progress :=
  match finished.find? current.name with
  | some _ => .error (.duplicate current.name)
  | none =>
    let complete := { current with lines := current.lines.reverse }
    .ok { finished := { implementations := finished.implementations ++ [complete] }
          current? := none }

def readCode (number : Nat) (code : List Char) (progress : Progress) :
    Except LibraryError Progress :=
  match ['.', 'i', 'm', 'p', 'l'].isPrefixOf? code with
  | some name => openImplementation number name progress
  | none =>
    match progress.current? with
    | none => .error (.malformed number (.outside (String.ofList code)))
    | some current =>
      if code = ['.', 'e', 'n', 'd'] then closeImplementation current progress.finished
      else do
        let line ← readBodyLine number code
        return { progress with current? := some { current with lines := line :: current.lines } }

def readLines : Nat → List (List Char) → Progress → Except LibraryError Progress
  | _, [], progress => .ok progress
  | number, line :: rest, progress =>
    let code := codeOf line
    if code.isEmpty then readLines (number + 1) rest progress
    else do readLines (number + 1) rest (← readCode number code progress)

def read (text : List Char) : Except LibraryError Library := do
  let lines := Text.lines text
  let progress ← readLines 1 lines { finished := {}, current? := none }
  match progress.current? with
  | some current => .error (.malformed lines.length (.unclosed current.name))
  | none => return progress.finished

end Library

end Cartridge.Asm
