import Cartridge.Program.Fault

/-!
What is done with each instruction of a body.

A call that the compiler executes itself takes in the constants loaded right before it, one for
each parameter. Every other instruction is compiled on its own.
-/

namespace Cartridge.Emit

open Program (Fault TypeTable Subroutine)

inductive Action where
  | compile (index : Nat)
  /-- Executes a call with the constants from an index up to the call. -/
  | execute (start call : Nat)
  deriving DecidableEq, Repr

namespace Action

def anchor : Action → Nat
  | .compile index => index
  | .execute _ call => call

def indices : Action → List Nat
  | .compile index => [index]
  | .execute start call => List.range' start (call + 1 - start)

end Action

/-- A call that is executed and the first of the constants it takes in. -/
structure Group where
  start : Nat
  call : Nat
  ordered : start ≤ call
  deriving DecidableEq, Repr

def executedCallee? (types : TypeTable) (instruction : Code.Instruction) : Option Subroutine := do
  let callee ← types.subroutine? (← instruction.callee?)
  match callee.intrinsic? with
  | some (.compileTime _) => some callee
  | _ => none

def hasConstants (body : List Code.Instruction) (index arity : Nat) : Bool :=
  arity ≤ index &&
    ((body.drop (index - arity)).take arity).all fun instruction =>
      instruction.opcode == .loadConstant

def groupAt? (types : TypeTable) (subroutine : Subroutine)
    (entry : Code.Instruction × Nat) : Except Fault (Option Group) :=
  match executedCallee? types entry.1 with
  | none => .ok none
  | some callee =>
    let arity := callee.parameters.length
    if hasConstants subroutine.instructions entry.2 arity then
      .ok (some { start := entry.2 - arity, call := entry.2, ordered := Nat.sub_le _ _ })
    else
      .error (.nonConstantArgument subroutine.fullName callee.fullName entry.2 arity)

def groups (types : TypeTable) (subroutine : Subroutine) : Except Fault (List Group) := do
  let found ← subroutine.instructions.zipIdx.mapM (groupAt? types subroutine)
  return found.filterMap id

/-- The actions from an index on. A group is looked up by its start and left behind as a whole. -/
def actionsFrom (groups : List Group) (index stop : Nat) : List Action :=
  if index < stop then
    match found : groups.find? fun group => group.start == index with
    | some group =>
      have := group.ordered
      have := List.find?_some found
      .execute index group.call :: actionsFrom groups (group.call + 1) stop
    | none => .compile index :: actionsFrom groups (index + 1) stop
  else
    []
termination_by stop - index
decreasing_by all_goals grind

def plan (types : TypeTable) (subroutine : Subroutine) : Except Fault (List Action) := do
  let groups ← groups types subroutine
  return actionsFrom groups 0 subroutine.instructions.length

end Cartridge.Emit
