import Cartridge.Program.Member

/-!
Programs: the resolved types of a module and the one subroutine where execution starts.
-/

namespace Cartridge

structure Program where
  types : Program.TypeTable
  entry : SubroutineId

namespace Program

def buildTable (scope : Scope) : Except Fault TypeTable :=
  (scope.origins.zip scope.values).zipIdx.foldlM
    (fun table ((origin, value), id) => do
      orTableFault (table.add (← resolveOrigin scope id value origin)))
    {}

def findEntry (types : TypeTable) : Except Fault SubroutineId :=
  match types.subroutines.filter (·.isEntry) with
  | [] => .error .noEntryPoint
  | [entry] => .ok entry.id
  | entries => .error (.multipleEntryPoints (entries.map (·.fullName)))

def ofModule (module : Source.Module) : Except Fault Program := do
  let scope ← Scope.ofModule module
  let types ← buildTable scope
  return { types, entry := ← findEntry types }

end Program

end Cartridge
