import Cartridge.Code.FlowGraph

/-!
The types on the evaluation stack while a body is walked from block to block.

Each block has a stack of its own. What a block leaves behind goes on to the next block that is
entered only when the former is that block's single predecessor, so that no other way of reaching
it could find something else on the stack.
-/

namespace Cartridge.Code

abbrev EvalStack := List ValueType

namespace EvalStack

def render (stack : EvalStack) : String :=
  "[" ++ ", ".intercalate (stack.reverse.map ValueType.name) ++ "]"

def bytes (stack : EvalStack) : Nat :=
  totalSize stack

end EvalStack

structure StackTracker where
  graph : FlowGraph
  /-- The stack of each block. -/
  entries : List EvalStack
  /-- The block entered last. -/
  current? : Option Nat

namespace StackTracker

def start (graph : FlowGraph) : StackTracker :=
  { graph, entries := List.replicate graph.blocks.length [], current? := none }

def stackOf (tracker : StackTracker) (block : Nat) : EvalStack :=
  tracker.entries[block]?.getD []

def stack (tracker : StackTracker) : EvalStack :=
  (tracker.current?.map tracker.stackOf).getD []

def setStack (tracker : StackTracker) (stack : EvalStack) : StackTracker :=
  match tracker.current? with
  | some block => { tracker with entries := tracker.entries.set block stack }
  | none => tracker

/-- Moves what one block leaves behind on top of the stack of another. -/
def carry (tracker : StackTracker) (previous block : Nat) : StackTracker :=
  let moved := tracker.stackOf previous
  let emptied := { tracker with entries := tracker.entries.set previous [] }
  { emptied with entries := emptied.entries.set block (moved ++ emptied.stackOf block) }

def enterBlock (tracker : StackTracker) (block : Nat) : StackTracker :=
  match tracker.current? with
  | none => { tracker with current? := some block }
  | some previous =>
    if previous = block then tracker
    else if tracker.graph.predecessors block = [previous] then
      { tracker.carry previous block with current? := some block }
    else { tracker with current? := some block }

def enter (tracker : StackTracker) (index : Nat) : StackTracker :=
  match tracker.graph.blockOf? index with
  | some block => tracker.enterBlock block
  | none => tracker

end StackTracker

end Cartridge.Code
