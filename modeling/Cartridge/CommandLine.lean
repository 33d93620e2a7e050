/-!
The arguments of the command line.

Arguments that start with a dash are options, save for a lone dash. An option that takes a value has
it in the next argument or, in its long form, behind an equals sign. All others name modules.
-/

namespace Cartridge.CommandLine

structure Arguments where
  modules : List String := []
  library? : Option String := none
  /-- Where the listing goes; a dash stands for standard output. -/
  output : String := "out.asm"
  optimize : Bool := true
  deriving DecidableEq, Repr

inductive UsageError where
  | unknownOption (option : String)
  | missingValue (option : String)
  | missingModule
  | missingLibrary
  deriving DecidableEq, Repr

def UsageError.message : UsageError → String
  | .unknownOption option => s!"unexpected option `{option}`"
  | .missingValue option => s!"option `{option}` requires a value"
  | .missingModule => "at least one module is required"
  | .missingLibrary => "a support library is required (option `--runtime`)"

inductive Choice where
  | library
  | output

def choice? (option : String) : Option Choice :=
  if option == "-r" || option == "--runtime" then some .library
  else if option == "-o" || option == "--output" then some .output
  else none

def Arguments.set (arguments : Arguments) (value : String) : Choice → Arguments
  | .library => { arguments with library? := some value }
  | .output => { arguments with output := value }

def splitValue? (argument : String) : Option (String × String) :=
  let front := argument.toList.takeWhile (· != '=')
  if front.length < argument.length then
    some (String.ofList front, String.ofList (argument.toList.drop (front.length + 1)))
  else none

def isOption (argument : String) : Bool :=
  argument.toList.head? == some '-' && argument != "-"

def readAttached (argument : String) (arguments : Arguments) : Except UsageError Arguments :=
  match splitValue? argument with
  | none => .error (.unknownOption argument)
  | some (option, value) =>
    match choice? option with
    | some choice => .ok (arguments.set value choice)
    | none => .error (.unknownOption argument)

def readFrom : List String → Arguments → Except UsageError Arguments
  | [], arguments => .ok arguments
  | argument :: rest, arguments =>
    if !isOption argument then
      readFrom rest { arguments with modules := arguments.modules ++ [argument] }
    else if argument == "--no-optimize" then
      readFrom rest { arguments with optimize := false }
    else
      match choice? argument, rest with
      | some choice, value :: rest => readFrom rest (arguments.set value choice)
      | some _, [] => .error (.missingValue argument)
      | none, rest => do readFrom rest (← readAttached argument arguments)

structure Request where
  modules : List String
  library : String
  output : String
  optimize : Bool

def read (given : List String) : Except UsageError Request := do
  let arguments ← readFrom given {}
  if arguments.modules.isEmpty then throw .missingModule
  match arguments.library? with
  | none => throw .missingLibrary
  | some library =>
    return { modules := arguments.modules, library, output := arguments.output
             optimize := arguments.optimize }

end Cartridge.CommandLine
