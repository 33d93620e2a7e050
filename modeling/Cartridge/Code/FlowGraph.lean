import Cartridge.Code.Instruction

/-!
The flow of control through a body.

A body is cut into basic blocks, which are named by their position. A block starts at the first
instruction, at every target of a branch, and after every branch or return. Targets outside the
body start no block and lead nowhere. The graph is made in four rounds: the starts of blocks are
gathered, blocks are cut between them, every instruction is told its block, and last each block is
entered as a predecessor of its successors.
-/

namespace Cartridge.Code

structure Block where
  start : Nat
  /-- The first index after the block. -/
  stop : Nat
  successors : List Nat := []
  predecessors : List Nat := []
  deriving DecidableEq, Repr

structure FlowGraph where
  blocks : List Block
  /-- The block of each instruction. -/
  blockOf : List Nat
  deriving DecidableEq, Repr

def targets (body : List Instruction) : List Nat :=
  body.filterMap Instruction.branchTarget?

def sortedTargets (body : List Instruction) : List Nat :=
  (targets body).mergeSort.eraseReps

namespace FlowGraph

def insert (index : Nat) : List Nat → List Nat
  | [] => [index]
  | first :: rest =>
    if index < first then index :: first :: rest
    else if index = first then first :: rest
    else first :: insert index rest

def gather (length : Nat) (leaders : List Nat) (entry : Instruction × Nat) : List Nat :=
  let targeted :=
    match entry.1.branchTarget? with
    | some target => if target < length then insert target leaders else leaders
    | none => leaders
  if entry.1.endsBlock && entry.2 + 1 < length then insert (entry.2 + 1) targeted else targeted

def leaders (body : List Instruction) : List Nat :=
  body.zipIdx.foldl (gather body.length) (if 0 < body.length then [0] else [])

def ranges (length : Nat) : List Nat → List (Nat × Nat)
  | [] => []
  | [start] => [(start, length)]
  | start :: next :: rest => (start, next) :: ranges length (next :: rest)

def cut (body : List Instruction) : List Block :=
  (ranges body.length (leaders body)).map fun (start, stop) => { start, stop }

def fill (table : List Nat) (entry : Block × Nat) : List Nat :=
  (List.range' entry.1.start (entry.1.stop - entry.1.start)).foldl
    (fun table index => table.set index entry.2) table

def indexBlocks (length : Nat) (blocks : List Block) : List Nat :=
  blocks.zipIdx.foldl fill (List.replicate length 0)

def pushNew (list : List Nat) (item : Nat) : List Nat :=
  if list.contains item then list else list ++ [item]

/-- The blocks that may run after one: the next, when control falls through, and then the one that
is branched to. -/
def successorsOf (body : List Instruction) (blockOf : List Nat) (block : Block) : List Nat :=
  match body[block.stop - 1]? with
  | none => []
  | some last =>
    let next :=
      if last.fallsThrough && block.stop < body.length then [blockOf.getD block.stop 0] else []
    match last.branchTarget? with
    | none => next
    | some target =>
      if target < body.length then pushNew next (blockOf.getD target 0) else next

def link (id : Nat) (blocks : List Block) (successor : Nat) : List Block :=
  blocks.modify successor fun block =>
    { block with predecessors := pushNew block.predecessors id }

def connect (body : List Instruction) (blockOf : List Nat) (blocks : List Block) (id : Nat) :
    List Block :=
  match blocks[id]? with
  | none => blocks
  | some block =>
    let successors := successorsOf body blockOf block
    (successors.foldl (link id) blocks).modify id fun block => { block with successors }

def ofBody (body : List Instruction) : FlowGraph :=
  let blocks := cut body
  let blockOf := indexBlocks body.length blocks
  { blocks := (List.range blocks.length).foldl (connect body blockOf) blocks, blockOf }

def blockOf? (graph : FlowGraph) (index : Nat) : Option Nat :=
  graph.blockOf[index]?

def predecessors (graph : FlowGraph) (block : Nat) : List Nat :=
  (graph.blocks[block]?.map Block.predecessors).getD []

end FlowGraph

end Cartridge.Code
