import Cartridge.Compile
import Cartridge.Proofs.Pieces
import Cartridge.Proofs.StackTracking

/-!
The arguments of calls that the compiler executes.

Such a call is executed on the constants that are written right before it. Control that comes in at
the first of them has pushed exactly these. A branch to a later one, or to the call itself, is not
refused, and what it brings along in place of the earlier ones is ignored.
-/

namespace Cartridge.Emit

open Code (Instruction)
open Program (Body Subroutine rel_getElem?)

/-- A value on the evaluation stack. -/
structure Valued where
  type : ValueType
  bytes : List UInt8
  sized : bytes.length = type.size

/-- What an instruction may push for what it popped, both topmost first. Constants and copies are
pushed as they are. The result of any other instruction may be any value of its type. -/
structure Site.Pushes (site : Site) (instruction : Instruction) (popped pushed : List Valued) :
    Prop where
  types : pushed.map (·.type) = (site.effect instruction).pushes (popped.map (·.type))
  constant : ∀ value, instruction = ⟨.loadConstant, .constant value⟩ →
    pushed.map (·.bytes) = [[UInt8.ofNat value.toNat]]
  copies : instruction.opcode = .duplicate → pushed = popped ++ popped

/-- A way from the start of a body to an instruction, with the instructions before it, newest first,
and the values on the stack when it is reached. -/
inductive Passage (site : Site) : Nat → List Nat → List Valued → Prop
  | start : Passage site 0 [] []
  | step {index next visited stack pushed instruction} (passage : Passage site index visited stack)
    (found : site.subroutine.instructions[index]? = some instruction)
    (goes : GoesTo instruction index next)
    (pushes : site.Pushes instruction (stack.take (site.effect instruction).pops) pushed) :
    Passage site next (index :: visited) (pushed ++ stack.drop (site.effect instruction).pops)

theorem Passage.load {site : Site} {index : Nat} {visited : List Nat} {stack : List Valued}
    {value : Int} (passage : Passage site index visited stack)
    (found : site.subroutine.instructions[index]? = some ⟨.loadConstant, .constant value⟩) :
    Passage site (index + 1) (index :: visited)
      (⟨.byte, [UInt8.ofNat value.toNat], rfl⟩ :: stack) := by
  refine @Passage.step _ _ _ _ _ [_] _ passage found (.inl ⟨rfl, rfl⟩) ⟨rfl, ?_, nofun⟩
  rintro value ⟨⟩
  rfl

/-- A way that came to an instruction at or behind a given one, with these values on the stack, and
from there on straight. It comes behind the given one only by a branch. -/
structure Enters (site : Site) (start entry index : Nat) (visited : List Nat)
    (below : List Valued) : Prop where
  low : start ≤ entry
  high : entry ≤ index
  straight : ∃ earlier, Passage site entry earlier below ∧
    visited = (List.range' entry (index - entry)).reverse ++ earlier ∧
    (start < entry → ∃ source instruction, earlier.head? = some source ∧
      site.subroutine.instructions[source]? = some instruction ∧
      instruction.branchTarget? = some entry)

/-- The code of a call that was executed on these bytes is part of a body. -/
def Site.Executes (site : Site) (body : Body) (call : Nat) (callee : Subroutine)
    (bytes : List UInt8) : Prop :=
  ∃ evaluator labels stack fragment, callee.intrinsic? = some (.compileTime evaluator) ∧
    site.evaluate call labels stack callee evaluator bytes = .ok fragment ∧
    fragment.code <:+: body.code ∧ fragment.data <:+: body.data

/-- Constants that are loaded one after the other. -/
def Loads (body : List Instruction) (start : Nat) (bytes : List UInt8) : Prop :=
  ∀ k byte, bytes[k]? = some byte → ∃ value : Int,
    body[start + k]? = some ⟨.loadConstant, .constant value⟩ ∧ UInt8.ofNat value.toNat = byte

theorem operands_of_constantBytes? {body : List Instruction} {bytes : List UInt8}
    (constant : Site.constantBytes? body = some bytes) :
    List.Forall₂ (fun instruction byte => ∃ value : Int,
      instruction.operand = .constant value ∧ UInt8.ofNat value.toNat = byte) body bytes := by
  induction body generalizing bytes with
  | nil =>
    obtain rfl := Option.some.inj constant
    exact .nil
  | cons instruction body ih =>
    rw [Site.constantBytes?, List.mapM_cons] at constant
    obtain ⟨byte, first, more⟩ := Option.bind_eq_some_iff.mp constant
    obtain ⟨rest, later, made⟩ := Option.bind_eq_some_iff.mp more
    obtain rfl := Option.some.inj made
    refine .cons ?_ (ih later)
    split at first
    next value isConstant =>
      split at first
      next => exact ⟨value, isConstant, Option.some.inj first⟩
      next => contradiction
    next => contradiction

theorem Group.Of.loads {types : Program.TypeTable} {body : List Instruction} {group : Group}
    (made : group.Of types body) {bytes : List UInt8}
    (constant : Site.constantBytes? ((body.drop group.start).take (group.call - group.start)) =
      some bytes) :
    Loads body group.start bytes := by
  intro k byte present
  have related := rel_getElem? (operands_of_constantBytes? constant) k
  rw [present, List.getElem?_take, List.getElem?_drop] at related
  split at related
  next inside =>
    obtain ⟨instruction, found, loads⟩ := made.constants (group.start + k) (by omega) (by omega)
    rw [found] at related
    obtain ⟨value, operand, same⟩ := Option.rel_some_some.mp related
    cases instruction
    subst loads operand
    exact ⟨value, found, same⟩
  next => cases related

/-- What control has pushed since it came in among loads of constants is these constants. -/
theorem enters_of_passage {site : Site} {start : Nat} {bytes : List UInt8}
    (loads : Loads site.subroutine.instructions start bytes) {index : Nat} {visited : List Nat}
    {stack : List Valued} (passage : Passage site index visited stack) (low : start ≤ index)
    (high : index ≤ start + bytes.length) :
    ∃ entry below, Enters site start entry index visited below ∧
      stack.map (·.bytes) =
        (((bytes.take (index - start)).drop (entry - start)).map ([·])).reverse ++
          below.map (·.bytes) := by
  induction passage with
  | start =>
    obtain rfl := Nat.le_zero.mp low
    exact ⟨0, [], ⟨low, low, [], .start, rfl, fun behind => absurd behind (Nat.lt_irrefl 0)⟩, rfl⟩
  | @step index next visited stack pushed instruction passage found goes pushes ih =>
    have arrives : Passage site next (index :: visited) _ := .step passage found goes pushes
    rcases Nat.eq_or_lt_of_le low with rfl | behind
    · refine ⟨start, _, ⟨low, low, _, arrives, by simp, fun behind => ?_⟩, by simp⟩
      exact absurd behind (Nat.lt_irrefl start)
    rcases goes with ⟨-, rfl⟩ | branches
    · obtain ⟨entry, below, ⟨low, high, earlier, entered, straight, branched⟩, top⟩ :=
        ih (by omega) (by omega)
      have present : bytes[index - start]? = some bytes[index - start] :=
        List.getElem?_eq_getElem (by omega)
      obtain ⟨value, loaded, same⟩ := loads _ _ present
      rw [Nat.add_sub_cancel' (by omega), found] at loaded
      obtain rfl := Option.some.inj loaded
      refine ⟨entry, below, ⟨low, by omega, earlier, entered, ?_, branched⟩, ?_⟩
      · rw [straight, Nat.succ_sub high, List.range'_1_concat, Nat.add_sub_cancel' high]
        simp
      · rw [Nat.succ_sub (by omega), List.take_add_one, present,
          List.drop_append_of_le_length (by simp; omega)]
        simp [Site.effect, pushes.constant value rfl, same, top]
    · exact ⟨next, _, ⟨low, Nat.le_refl _, _, arrives, by simp, fun _ =>
        ⟨index, instruction, rfl, found, branches⟩⟩, by simp⟩

/-- A loop that makes a table of two bytes in each round. -/
def tableLoop : Site :=
  let fill : Subroutine :=
    { id := ⟨0, 0⟩, name := "Fill", fullName := "Game::Fill", instructions :=
      [⟨.loadConstant, .constant 1⟩, ⟨.loadConstant, .constant 2⟩, ⟨.call, .method ⟨0, 1⟩⟩,
        ⟨.pop, .empty⟩, ⟨.branch, .target 0⟩] }
  let table : Subroutine :=
    { id := ⟨0, 1⟩, name := "Table", fullName := "Game::Table", parameters := [.byte, .byte]
      returns := .pointer .byte false, intrinsic? := some (.compileTime .data) }
  { types := { types :=
      [{ id := 0, name := "Game", value := .primitive .void, subroutines := [fill, table] }] }
    memory := { allocations := [] }
    subroutine := fill }

/-- A game with a branch over the constant before a call that the compiler executes. -/
def stray : Source.Module :=
  { types := [{ name := "Game", fields := [{ name := "Score", type := "byte", isStatic := true }]
                subroutines :=
      [{ name := "Main", isEntry := true
         instructions := [⟨"ldc", some (.constant 7)⟩, ⟨"br", some (.target 3)⟩,
           ⟨"ldc", some (.constant 5)⟩, ⟨"call", some (.method ⟨"Game", "Level"⟩)⟩,
           ⟨"stsfld", some (.field ⟨"Game", "Score"⟩)⟩, ⟨"ret", none⟩] },
       { name := "Level", parameters := ["byte"], returns := "byte"
         intrinsic? := some (.compileTime .convert) }] }] }

def strayBody : Body :=
  { code := [.immediate .lda 7, .op .pha, .direct .jmp "Game_Main_IL_0003",
      .label "Game_Main_IL_0003", .immediate .lda 5, .direct .sta "Game_Score", .op .rts] }

/-- What a body calls that is like the one of the game. -/
def strayCallee? : List Instruction → Option SubroutineId
  | [⟨.loadConstant, .constant 7⟩, ⟨.branch, .target 3⟩, ⟨.loadConstant, .constant 5⟩,
      ⟨.call, .method id⟩, _, _] => some id
  | _ => none

theorem strayCallee?_eq_some {body : List Instruction} {id : SubroutineId}
    (calls : strayCallee? body = some id) :
    ∃ rest, body = [⟨.loadConstant, .constant 7⟩, ⟨.branch, .target 3⟩,
      ⟨.loadConstant, .constant 5⟩, ⟨.call, .method id⟩] ++ rest := by
  unfold strayCallee? at calls
  split at calls
  next =>
    obtain rfl := Option.some.inj calls
    exact ⟨_, rfl⟩
  next => contradiction

end Cartridge.Emit
