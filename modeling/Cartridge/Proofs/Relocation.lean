import Cartridge.Proofs.NestedCalls

/-!
Code under other names.

Renaming the symbols that code refers to is the same as giving the symbols the addresses of their
new names. What the stack holds does not depend on these.
-/

namespace Cartridge.Machine

open Asm (Instruction Operand Symbol Value)

/-- The addresses of symbols under other names. -/
def Wiring.relocate (wiring : Wiring) (rename : Symbol → Symbol) : Wiring :=
  { wiring with address := fun symbol => wiring.address (rename symbol) }

def Frame.relocate (frame : Frame) (rename : Symbol → Symbol) : Frame :=
  { frame with wiring := frame.wiring.relocate rename }

def Surroundings.relocate (around : Surroundings) (rename : Symbol → Symbol) : Surroundings :=
  { frame := around.frame.relocate rename, calls := fun symbol => around.calls (rename symbol) }

section Relocation

variable {wiring : Wiring} {rename : Symbol → Symbol} {cpu : Cpu}

theorem value_mapSymbol (value : Value) :
    wiring.value (value.mapSymbol rename) = (wiring.relocate rename).value value := by
  cases value <;> rfl

theorem indexed_mapSymbol (value : Value) (index : UInt8) :
    wiring.indexed (value.mapSymbol rename) index =
      (wiring.relocate rename).indexed value index := by
  cases value <;> rfl

theorem effective?_mapValue (operand : Operand) :
    wiring.effective? cpu (operand.mapValue (·.mapSymbol rename)) =
      (wiring.relocate rename).effective? cpu operand := by
  cases operand with
  | implied => rfl
  | addressed mode value =>
    cases mode <;> simp only [Operand.mapValue, Wiring.effective?, value_mapSymbol,
      indexed_mapSymbol] <;> rfl

theorem operand?_mapValue (operand : Operand) :
    wiring.operand? cpu (operand.mapValue (·.mapSymbol rename)) =
      (wiring.relocate rename).operand? cpu operand := by
  have loaded : (wiring.effective? cpu (operand.mapValue (·.mapSymbol rename))).map
      (wiring.read cpu.cells) = ((wiring.relocate rename).effective? cpu operand).map
        ((wiring.relocate rename).read cpu.cells) := by
    rw [effective?_mapValue]
    rfl
  cases operand with
  | implied => rfl
  | addressed mode value =>
    cases mode with
    | immediate => exact congrArg (some <| UInt16.toUInt8 ·) (value_mapSymbol value)
    | _ => exact loaded

theorem touched_mapValue (operand : Operand) :
    wiring.touched cpu (operand.mapValue (·.mapSymbol rename)) =
      (wiring.relocate rename).touched cpu operand := by
  have through : wiring.through? cpu (operand.mapValue (·.mapSymbol rename)) =
      (wiring.relocate rename).through? cpu operand := by
    cases operand with
    | implied => rfl
    | addressed mode value =>
      cases mode <;> simp only [Operand.mapValue, Wiring.through?, value_mapSymbol]
  rw [Wiring.touched, through, effective?_mapValue, Wiring.touched]

theorem execute?_relabel (instruction : Instruction) :
    wiring.execute?
        { instruction with operand := instruction.operand.mapValue (·.mapSymbol rename) } cpu =
      (wiring.relocate rename).execute? instruction cpu := by
  obtain ⟨mnemonic, operand⟩ := instruction
  cases operand with
  | implied => cases mnemonic <;> rfl
  | addressed mode value =>
    have effective : wiring.effective? cpu (.addressed mode (value.mapSymbol rename)) =
        (wiring.relocate rename).effective? cpu (.addressed mode value) :=
      effective?_mapValue (.addressed mode value)
    have operand : wiring.operand? cpu (.addressed mode (value.mapSymbol rename)) =
        (wiring.relocate rename).operand? cpu (.addressed mode value) :=
      operand?_mapValue (.addressed mode value)
    simp only [Wiring.execute?, Operand.mapValue, effective, operand]
    rfl

theorem careful_relabel {frame : Frame} {limit : Nat} {held : Bool} {instruction : Instruction} :
    frame.Careful limit held
        { instruction with operand := instruction.operand.mapValue (·.mapSymbol rename) } cpu ↔
      (frame.relocate rename).Careful limit held instruction cpu := by
  have touched : frame.wiring.touched cpu (instruction.operand.mapValue (·.mapSymbol rename)) =
      (frame.wiring.relocate rename).touched cpu instruction.operand :=
    touched_mapValue instruction.operand
  constructor
  · intro careful
    refine ⟨careful.pushes, fun free address member => ?_⟩
    exact careful.keepsOff free address (touched ▸ member)
  · intro careful
    refine ⟨careful.pushes, fun free address member => ?_⟩
    exact careful.keepsOff free address (touched ▸ member)

theorem held_relocate {frame : Frame} {bytes : List UInt8} :
    Held (frame.relocate rename) bytes cpu ↔ Held frame bytes cpu :=
  ⟨fun held => ⟨held.pointer, held.room, held.held⟩,
    fun held => ⟨held.pointer, held.room, held.held⟩⟩

theorem alike_relocate {frame : Frame} {taken other bytes : List UInt8} {held : Bool}
    {first second : Cpu} :
    Alike (frame.relocate rename) taken other bytes held first second ↔
      Alike frame taken other bytes held first second :=
  ⟨fun alike => ⟨alike.registers, held_relocate.mp alike.stack,
      held_relocate.mp alike.stackOther, alike.memory⟩,
    fun alike => ⟨alike.registers, held_relocate.mpr alike.stack,
      held_relocate.mpr alike.stackOther, alike.memory⟩⟩

theorem balanced_relocate {frame : Frame} {taken other : List UInt8} {limit limitOther : Nat}
    (balanced : Balanced frame taken other limit limitOther) :
    Balanced (frame.relocate rename) taken other limit limitOther :=
  ⟨balanced.shallow, balanced.room, balanced.roomOther, balanced.same⟩

theorem Surroundings.Oblivious.relocate {around : Surroundings} {called : Symbol → Prop}
    (oblivious : around.Oblivious called) (rename : Symbol → Symbol) :
    (around.relocate rename).Oblivious fun symbol => called (rename symbol) := by
  intro symbol isCalled word wordOther taken other bytes limit limitOther first second after
    balanced alike ran
  obtain ⟨counterpart, ranOther, there⟩ := oblivious (rename symbol) isCalled word wordOther taken
    other bytes limit limitOther first second after
    ⟨balanced.shallow, balanced.room, balanced.roomOther, balanced.same⟩ (alike_relocate.mp alike)
    ran
  exact ⟨counterpart, ranOther, alike_relocate.mpr there⟩

theorem clear_relocate {frame : Frame} (clear : frame.Clear) : (frame.relocate rename).Clear :=
  ⟨clear.mirrored, clear.apart⟩

end Relocation

end Cartridge.Machine
