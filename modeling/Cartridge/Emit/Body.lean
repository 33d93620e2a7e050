import Cartridge.Asm.Library
import Cartridge.Asm.Peephole
import Cartridge.Emit.Plan
import Cartridge.Emit.Step

/-!
Bodies for the subroutines of a program.

Subroutines are compiled callees first, so that a body exists before it is copied into a caller.
-/

namespace Cartridge.Emit

open Asm (Library Line)
open Code (StackTracker)
open Program (Body CallGraph Fault Subroutine TypeTable)

structure Progress where
  tracker : StackTracker
  labels : Nat := 0
  code : List Line := []
  data : List Line := []

namespace Site

def actionLabels (site : Site) (targets : List Nat) (action : Action) : List Line :=
  (action.indices.filter targets.contains).map fun index => .label (site.instructionLabel index)

def perform (site : Site) (action : Action) (labels : Nat) (stack : Code.EvalStack) :
    Except Fault Fragment :=
  match action with
  | .compile index =>
    match site.subroutine.instructions[index]? with
    | some instruction => site.step index instruction labels stack
    | none => .ok { stack, labels }
  | .execute start call => site.execute start call labels stack

def advance (site : Site) (targets : List Nat) (progress : Progress) (action : Action) :
    Except Fault Progress := do
  let tracker := progress.tracker.enter action.anchor
  let fragment ← site.perform action progress.labels tracker.stack
  return { tracker := tracker.setStack fragment.stack
           labels := fragment.labels
           code := progress.code ++ site.actionLabels targets action ++ fragment.code
           data := progress.data ++ fragment.data }

def compile (site : Site) : Except Fault Body := do
  let actions ← plan site.types site.subroutine
  let targets := Code.targets site.subroutine.instructions
  let tracker := StackTracker.start site.subroutine.flowGraph
  let progress ← actions.foldlM (site.advance targets) { tracker }
  return { code := progress.code, data := progress.data }

end Site

def optimizeBody (optimize : Bool) (body : Body) : Body :=
  if optimize then { body with code := Asm.Peephole.optimize body.code } else body

/-- The body of a subroutine: provided, empty, or compiled from its instructions. -/
def subroutineBody (library : Library) (optimize : Bool) (site : Site) : Except Fault Body :=
  match site.subroutine.intrinsic? with
  | some (.useProvided implementation) =>
    match library.get? implementation with
    | some code => .ok { code }
    | none => .error (.missingImplementation site.subroutine.fullName implementation)
  | some .ignore => .ok { code := [.op .rts] }
  | _ => do return optimizeBody optimize (← site.compile)

def compileInto (memory : Memory.Map) (library : Library) (optimize : Bool) (types : TypeTable)
    (id : SubroutineId) : Except Fault TypeTable :=
  match types.subroutine? id with
  | none => .ok types
  | some subroutine =>
    if subroutine.replacesCall then .ok types
    else do
      let body ← subroutineBody library optimize { types, memory, subroutine }
      Program.orTableFault (types.replaceSubroutine { subroutine with body? := some body })

def compileAll (types : TypeTable) (graph : CallGraph) (memory : Memory.Map) (library : Library)
    (optimize : Bool) : Except Fault TypeTable :=
  graph.order.foldlM (compileInto memory library optimize) types

end Cartridge.Emit
