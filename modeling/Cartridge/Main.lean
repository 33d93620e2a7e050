import Cartridge.CommandLine
import Cartridge.Compile
import Cartridge.Source.Reader

/-!
The compiler as a program: it reads modules and a support library from files and writes the listing
of a cartridge.
-/

namespace Cartridge.Main

def fail {α : Type} (message : String) : IO α :=
  throw (IO.userError message)

def readText (failure path : String) : IO (List Char) := do
  let content ← try IO.FS.readFile path catch _ => fail s!"{failure}: {path}"
  return content.toList

def readModule (path : String) : IO Source.Module := do
  match Source.Module.read? (← readText "Failed to open module" path) with
  | some module => return module
  | none => fail s!"Failed to parse module: {path}"

def readLibrary (path : String) : IO Asm.Library := do
  match Asm.Library.read (← readText "Failed to load support library" path) with
  | .ok library => return library
  | .error error =>
    let cause := error.message
    fail s!"Failed to load support library: {path}: {cause}"

def writeListing (output listing : String) : IO Unit := do
  if output == "-" then IO.print listing
  else try IO.FS.writeFile output listing catch _ => fail s!"Failed to emit to file: {output}"

def run (request : CommandLine.Request) : IO Unit := do
  let modules ← request.modules.mapM readModule
  let library ← readLibrary request.library
  match compile (.merge modules) library { optimize := request.optimize } with
  | .ok image => writeListing request.output (Asm.renderListing image.lines)
  | .error faults =>
    IO.eprint (Program.report faults)
    fail "Compilation failed"

end Cartridge.Main

def main (arguments : List String) : IO UInt32 := do
  match Cartridge.CommandLine.read arguments with
  | .error error =>
    IO.eprintln ("Error: " ++ error.message)
    return 2
  | .ok request =>
    try
      Cartridge.Main.run request
      return 0
    catch error =>
      IO.eprintln ("Error: " ++ toString error)
      return 1
