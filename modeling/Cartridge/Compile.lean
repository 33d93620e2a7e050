import Cartridge.Emit.Body
import Cartridge.Listing.Image

/-!
From a module to the image of a cartridge.

Resolution, allocation and code generation stop at their first fault. The call graph alone reports
several at once, one for each cycle.
-/

namespace Cartridge

open Program (Fault)

structure Options where
  /-- Whether the peephole rules are applied to each body. -/
  optimize : Bool := true
  ram : Memory.Ram := {}
  deriving DecidableEq, Repr

def single {α : Type} : Except Fault α → Except (List Fault) α
  | .ok value => .ok value
  | .error fault => .error [fault]

def callGraph (types : Program.TypeTable) : Except (List Fault) Program.CallGraph :=
  match Program.CallGraph.build types with
  | .ok graph => .ok graph
  | .error cycles => .error (cycles.map (·.fault types))

def compile (module : Source.Module) (library : Asm.Library) (options : Options) :
    Except (List Fault) Listing.Image := do
  let program ← single (Program.ofModule module)
  let graph ← callGraph program.types
  let memory ← single (Memory.Map.allocate program.types graph options.ram)
  let types ← single (Emit.compileAll program.types graph memory library options.optimize)
  return { program := { program with types }, graph, memory, ram := options.ram }

end Cartridge
