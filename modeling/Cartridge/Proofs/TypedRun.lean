import Cartridge.Proofs.Representation
import Cartridge.Proofs.StackTracking
import Mathlib.Data.List.Forall2

/-!
Runs of a subroutine and the types of their values.

A run follows a path through the instructions. Whatever an instruction pushes has the size of the
type that it pushes on that path, so each value on the stack of a run is as large as its type says,
even where the compiler has lost track of it.
-/

namespace Cartridge.Machine

open Code (EvalStack Instruction)
open Emit (Effect GoesTo Path Site)

def Typed (types : EvalStack) (stack : List Bytes) : Prop :=
  List.Forall₂ (fun type value => value.length = type.size) types stack

namespace Typed

variable {types : EvalStack} {stack : List Bytes} {type : ValueType} {value : Bytes}

theorem push (typed : Typed types stack) (sized : value.length = type.size) :
    Typed (type :: types) (value :: stack) :=
  List.Forall₂.cons sized typed

theorem pop (typed : Typed types (value :: stack)) :
    ∃ type rest, types = type :: rest ∧ value.length = type.size ∧ Typed rest stack := by
  obtain ⟨type, rest, sized, below, rfl⟩ := List.forall₂_cons_right_iff.mp typed
  exact ⟨type, rest, rfl, sized, below⟩

theorem top (typed : Typed types (value :: stack)) {rest : EvalStack}
    (known : type :: rest <+: types) : value.length = type.size := by
  obtain ⟨other, below, rfl, sized, -⟩ := typed.pop
  obtain ⟨rfl, -⟩ := List.cons_prefix_cons.mp known
  exact sized

end Typed

/-- An instruction goes on where control may go, with values of the types it pushes. -/
theorem typed_of_perform? {wiring : Wiring} {site : Site} {config next : Config}
    {touched : List UInt16} {instruction : Instruction} {types : EvalStack}
    (typed : Typed types config.stack)
    (performed : perform? wiring site config instruction = some ⟨touched, .goesOn next⟩) :
    GoesTo instruction config.index next.index ∧
      Typed ((site.effect instruction).apply types) next.stack := by
  obtain ⟨opcode, operand⟩ := instruction
  obtain ⟨index, stack, cells⟩ := config
  -- What lies below the popped values stays typed, so only what is pushed is of interest.
  cases opcode with
  | nop =>
    obtain ⟨-, rfl⟩ := goOn_eq performed
    exact ⟨.inl ⟨rfl, rfl⟩, typed⟩
  | loadConstant =>
    cases operand with
    | constant value =>
      obtain ⟨-, rfl⟩ := goOn_eq performed
      exact ⟨.inl ⟨rfl, rfl⟩, typed.push rfl⟩
    | _ => contradiction
  | loadLocal | loadArgument | loadStaticField =>
    obtain ⟨allocation, type, slot, -, rfl⟩ := load?_eq performed
    refine ⟨.inl ⟨rfl, rfl⟩, ?_⟩
    simp only [Site.effect, Effect.apply, slot]
    refine typed.push ?_
    rw [readAll_length, slotSpan_length]
  | storeLocal | storeArgument | storeStaticField =>
    obtain ⟨allocation, type, value, below, -, rfl, -, -, rfl⟩ := store?_eq performed
    obtain ⟨top, rest, rfl, -, typedBelow⟩ := typed.pop
    exact ⟨.inl ⟨rfl, rfl⟩, typedBelow⟩
  | loadStaticFieldAddress =>
    obtain ⟨allocation, type, slot, -, rfl⟩ := staticAddress_eq performed
    refine ⟨.inl ⟨rfl, rfl⟩, ?_⟩
    simp only [Site.effect, Effect.apply, slot]
    exact typed.push rfl
  | loadField =>
    obtain ⟨type, offset, pointer, below, member, rfl, -, rfl⟩ := loadField_eq performed
    obtain ⟨top, rest, rfl, -, typedBelow⟩ := typed.pop
    refine ⟨.inl ⟨rfl, rfl⟩, ?_⟩
    simp only [Site.effect, Effect.apply, member]
    refine typedBelow.push ?_
    rw [readAll_length, pageSpan_length]
  | loadFieldAddress =>
    obtain ⟨type, offset, pointer, below, member, rfl, -, rfl⟩ := fieldAddress_eq performed
    obtain ⟨top, rest, rfl, -, typedBelow⟩ := typed.pop
    refine ⟨.inl ⟨rfl, rfl⟩, ?_⟩
    simp only [Site.effect, Effect.apply, member]
    exact typedBelow.push rfl
  | storeField =>
    obtain ⟨type, offset, value, pointer, below, -, rfl, -, -, rfl⟩ := storeField_eq performed
    obtain ⟨top, rest, rfl, -, typedNext⟩ := typed.pop
    obtain ⟨second, types, rfl, -, typedBelow⟩ := typedNext.pop
    exact ⟨.inl ⟨rfl, rfl⟩, typedBelow⟩
  | initObject =>
    cases operand with
    | type type =>
      obtain ⟨pointer, below, rfl, -, rfl⟩ := initObject_eq performed
      obtain ⟨top, rest, rfl, -, typedBelow⟩ := typed.pop
      exact ⟨.inl ⟨rfl, rfl⟩, typedBelow⟩
    | _ => contradiction
  | add | subtract | compareGreater | compareEqual | compareLess =>
    simp only [perform?] at performed
    obtain ⟨first, second, below, rfl, -, rfl⟩ := combine?_eq performed
    obtain ⟨top, rest, rfl, -, typedNext⟩ := typed.pop
    obtain ⟨next, types, rfl, -, typedBelow⟩ := typedNext.pop
    exact ⟨.inl ⟨rfl, rfl⟩, typedBelow.push rfl⟩
  | convert =>
    obtain ⟨byte, below, rfl, -, rfl⟩ := convert_eq performed
    obtain ⟨top, rest, rfl, -, typedBelow⟩ := typed.pop
    exact ⟨.inl ⟨rfl, rfl⟩, typedBelow.push rfl⟩
  | duplicate =>
    obtain ⟨value, below, rfl, -, rfl⟩ := duplicate_eq performed
    obtain ⟨top, rest, rfl, sized, typedBelow⟩ := typed.pop
    exact ⟨.inl ⟨rfl, rfl⟩, (typedBelow.push sized).push sized⟩
  | pop =>
    obtain ⟨value, below, rfl, -, rfl⟩ := discard_eq performed
    obtain ⟨top, rest, rfl, -, typedBelow⟩ := typed.pop
    exact ⟨.inl ⟨rfl, rfl⟩, typedBelow⟩
  | branch =>
    cases operand with
    | target target =>
      obtain ⟨-, rfl⟩ := goTo_eq performed
      exact ⟨.inr rfl, typed⟩
    | _ => contradiction
  | branchIfTrue | branchIfFalse =>
    cases operand with
    | target target =>
      simp only [perform?] at performed
      obtain ⟨byte, below, rfl, -, rfl⟩ := branchOn?_eq performed
      obtain ⟨top, rest, rfl, -, typedBelow⟩ := typed.pop
      refine ⟨?_, typedBelow⟩
      simp only
      split
      · exact .inr rfl
      · exact .inl ⟨rfl, rfl⟩
    | _ => contradiction
  | ret =>
    rcases ret_eq performed with ⟨-, made⟩ | ⟨-, byte, below, -, made⟩ <;> cases made
  | call => contradiction
  | other name => contradiction

/-- A run that has come to an instruction. It touches no cell that the code uses for itself, and it
never needs more of the hardware stack than there is for it. -/
inductive Run (frame : Frame) (site : Site) (cells : Cells) : Config → Prop
  | start : Run frame site cells ⟨0, [], cells⟩
  | step {config next touched} (run : Run frame site cells config)
    (evaluated : evaluate? frame.wiring site config = some ⟨touched, .goesOn next⟩)
    (free : ∀ address ∈ touched, ¬frame.Reserved (frame.wiring.cell address))
    (room : (stackBytes next.stack).length ≤ frame.depth) : Run frame site cells next

theorem evaluate?_eq {wiring : Wiring} {site : Site} {config : Config} {transition : Transition}
    (evaluated : evaluate? wiring site config = some transition) :
    ∃ instruction, site.subroutine.instructions[config.index]? = some instruction ∧
      perform? wiring site config instruction = some transition :=
  Option.bind_eq_some_iff.mp evaluated

/-- A run follows a path whose types are those of its values. -/
theorem Run.path {frame : Frame} {site : Site} {cells : Cells} {config : Config}
    (run : Run frame site cells config) :
    ∃ types, Path site config.index types ∧ Typed types config.stack := by
  induction run with
  | start => exact ⟨[], .start, List.Forall₂.nil⟩
  | step _ evaluated _ _ ih =>
    obtain ⟨types, path, typed⟩ := ih
    obtain ⟨instruction, found, performed⟩ := evaluate?_eq evaluated
    obtain ⟨goes, typedNext⟩ := typed_of_perform? typed performed
    exact ⟨_, path.step found goes, typedNext⟩

def follow? (frame : Frame) (site : Site) : Nat → Config → Option Config
  | 0, config => some config
  | steps + 1, config =>
    match evaluate? frame.wiring site config with
    | some ⟨touched, .goesOn next⟩ =>
      if touched.all (fun address => !decide (frame.Reserved (frame.wiring.cell address))) = true ∧
          (stackBytes next.stack).length ≤ frame.depth then
        follow? frame site steps next
      else none
    | _ => none

theorem Run.follow {frame : Frame} {site : Site} {cells : Cells} {config last : Config}
    (run : Run frame site cells config) {steps : Nat}
    (followed : follow? frame site steps config = some last) : Run frame site cells last := by
  induction steps generalizing config with
  | zero =>
    obtain rfl := Option.some.inj followed
    exact run
  | succ steps ih =>
    rw [follow?] at followed
    split at followed
    next touched next evaluated =>
      split at followed
      next clear =>
        have free : ∀ address ∈ touched, ¬frame.Reserved (frame.wiring.cell address) := by
          simpa using clear.1
        exact ih (run.step evaluated free clear.2) followed
      next => contradiction
    next => contradiction

end Cartridge.Machine
