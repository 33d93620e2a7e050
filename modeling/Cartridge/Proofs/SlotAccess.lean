import Cartridge.Proofs.ArgumentPassing

/-!
Which bytes the accesses to slots touch.

A load pushes the bytes of its slot in increasing order, and a store or a passed argument is pulled
in decreasing order. Of each slot the bytes are touched once, as long as it has no more of them than
a byte can count; beyond that the code comes back to the first ones and never gets to the rest.
-/

namespace Cartridge.Machine

open Asm (Line)
open Program (TypeTable)

/-- Code that pushes the bytes at some addresses, the first one first. -/
def Wiring.Pushes (wiring : Wiring) (addresses : List UInt16) (code : List Line) : Prop :=
  ∃ places, places.map wiring.value = addresses ∧ code = pushes places

/-- Code that pulls bytes to some addresses, the last one first. -/
def Wiring.Pulls (wiring : Wiring) (addresses : List UInt16) (code : List Line) : Prop :=
  ∃ places, places.map wiring.value = addresses ∧ code = pulls places

/-- All bytes of the slot are accessed, and each of them once, unless slots could not be told apart
or the bytes of one could not be counted. -/
structure Access.CoversSlot (access : Access) (types : TypeTable) : Prop where
  sized : types.FewSlots → access.size = access.slot.size
  covers : access.addresses = slotSpan access.slot.address access.size ↔ access.size ≤ 256
  once : access.size ≤ 256 → access.addresses.Nodup

theorem Access.coversSlot_of_sized {access : Access} {types : TypeTable}
    (sized : types.FewSlots → access.size = access.slot.size) : access.CoversSlot types := by
  have covers := reach_eq_slotSpan_iff access.slot.address access.size
  refine ⟨sized, covers, fun small => ?_⟩
  rw [addresses, covers.mpr small]
  exact slotSpan_nodup _ (Nat.le_trans small (by decide))

/-- The bytes of a slot that is loaded are in the slot of the same size that is stored to next. -/
theorem runs_copy {memory : Memory.Map} {source target : Access} {frame : Frame}
    (clear : frame.Clear) (houses : frame.Houses memory) (sourceWhole : source.Whole memory)
    (targetWhole : target.Whole memory) (same : source.size = target.size) {cpu : Cpu}
    {below : List UInt8} (held : Held frame below cpu)
    (room : below.length + source.size ≤ frame.depth) :
    frame.wiring.Runs (pushes source.places ++ pulls target.places) cpu fun after =>
      frame.wiring.readAll after.cells target.slot.span =
          frame.wiring.readAll cpu.cells source.slot.span ∧
        Held frame below after ∧
        ∀ cell, ¬frame.OnStack cell → cell ∉ target.slot.span.map frame.wiring.cell →
          after.cells cell = cpu.cells cell := by
  have addresses : source.places.map frame.wiring.value = source.slot.span := by
    rw [Access.value_places (houses.named _ sourceWhole.allocated), sourceWhole.addresses_eq]
  have length : source.places.length = source.size := by
    simp [Access.places, bytePlaces]
  refine (runs_pushes clear held ?_ (by rwa [length])).append ?_
  · rw [addresses]
    exact fun address inside =>
      houses.off address (List.mem_flatMap.mpr ⟨source.slot, sourceWhole.allocated, inside⟩)
  rintro next ⟨heldNext, kept⟩
  rw [addresses] at heldNext
  -- A single slot is a row of one.
  have single : pulls target.places = pulls ([target].flatMap Access.places) := by
    rw [List.flatMap_singleton]
  have distinct : ([target].flatMap fun access => access.slot.span).Nodup := by
    rw [List.flatMap_singleton]
    exact slotSpan_nodup _
      (Nat.le_trans (targetWhole.whole ▸ targetWhole.small) (by decide))
  have fits : [frame.wiring.readAll cpu.cells source.slot.span].map List.length =
      [target].map fun access => access.slot.size := by
    simp [readAll_length, Memory.Allocation.span, slotSpan_length,
      ← targetWhole.whole, ← sourceWhole.whole, same]
  have pushed : Held frame
      (below ++ [frame.wiring.readAll cpu.cells source.slot.span].flatten) next := by
    simpa using heldNext
  rw [single]
  refine (runs_into_slots houses (List.forall_mem_singleton.mpr targetWhole) distinct fits
    pushed).mono ?_
  rintro after ⟨copied, heldAfter, elsewhere⟩
  refine ⟨List.singleton_inj.mp copied, heldAfter, fun cell off other => ?_⟩
  rw [List.flatMap_singleton] at elsewhere
  rw [elsewhere cell other, kept cell off]

end Cartridge.Machine

namespace Cartridge.Emit

open Asm (Line)
open Code (EvalStack Instruction Opcode Operand)
open Machine (Access Cpu Frame Held Wiring pulls pushes)
open Program (CallGraph Subroutine TypeTable)

namespace Site

def loads : List Opcode :=
  [.loadLocal, .loadArgument, .loadStaticField]

def stores : List Opcode :=
  [.storeLocal, .storeArgument, .storeStaticField]

def access? (site : Site) (operand : Operand) : Option Access :=
  (site.slot? operand).map fun (slot, type) => { slot, size := type.size }

/-- The code of an instruction accesses the slots that the instruction is about, byte by byte. -/
structure Bytewise (site : Site) (types : TypeTable) (wiring : Wiring) (instruction : Instruction)
    (code : List Line) : Prop where
  load : instruction.opcode ∈ loads → ∃ access, site.access? instruction.operand = some access ∧
    access.CoversSlot types ∧ wiring.Pushes access.addresses code
  store : instruction.opcode ∈ stores → ∃ access, site.access? instruction.operand = some access ∧
    access.CoversSlot types ∧ wiring.Pulls access.addresses code
  call : ∀ id callee, instruction = ⟨.call, .method id⟩ →
    site.types.subroutine? id = some callee → callee.replacesCall = false →
    ∃ (passing rest : List Line) (accesses : List Access), code = passing ++ rest ∧
      accesses.length = callee.parameters.length ∧
      (∀ n access, accesses[n]? = some access →
        (∃ type, callee.parameters[n]? = some type ∧ site.PassesTo callee (type, n) access) ∧
          access.CoversSlot types) ∧
      wiring.Pulls (accesses.flatMap Access.addresses) passing

/-- The code that loads a slot and the code that stores to one of the same size copy the first to
the second. -/
def CopiesSlots (site : Site) (frame : Frame) : Prop :=
  ∀ index load source labels stack first, load ∈ loads →
    site.step index ⟨load, source⟩ labels stack = .ok first →
  ∀ next store target labels stack second, store ∈ stores →
    site.step next ⟨store, target⟩ labels stack = .ok second →
  ∃ sourceAccess targetAccess, site.access? source = some sourceAccess ∧
    site.access? target = some targetAccess ∧
    (sourceAccess.slot.size = targetAccess.slot.size → sourceAccess.slot.size ≤ 256 →
      ∀ cpu below, Held frame below cpu →
        below.length + sourceAccess.slot.size ≤ frame.depth →
        frame.wiring.Runs (first.code ++ second.code) cpu fun after =>
          frame.wiring.readAll after.cells targetAccess.slot.span =
            frame.wiring.readAll cpu.cells sourceAccess.slot.span ∧
          Held frame below after ∧
          ∀ cell, ¬frame.OnStack cell → cell ∉ targetAccess.slot.span.map frame.wiring.cell →
            after.cells cell = cpu.cells cell)

variable {site : Site} {types : TypeTable} {graph : CallGraph} {ram : Memory.Ram}
  {index labels : Nat} {stack : EvalStack} {operand : Operand} {opcode : Opcode}
  {fragment : Fragment} {access : Access}

theorem slot?_of_access? (found : site.access? operand = some access) :
    ∃ type, site.slot? operand = some (access.slot, type) ∧ access.size = type.size := by
  obtain ⟨⟨slot, type⟩, named, rfl⟩ := Option.map_eq_some_iff.mp found
  exact ⟨type, named, rfl⟩

theorem code_of_load (isLoad : opcode ∈ loads)
    (made : site.step index ⟨opcode, operand⟩ labels stack = .ok fragment) :
    ∃ access, site.access? operand = some access ∧ fragment.code = pushes access.places := by
  simp only [loads, List.mem_cons, List.not_mem_nil, or_false] at isLoad
  rcases isLoad with rfl | rfl | rfl <;> cases lowered_of_step made with
  | load _ slot => exact ⟨_, Option.map_eq_some_iff.mpr ⟨_, slot, rfl⟩, Machine.loadLines_eq _ _⟩
  | _ => simp_all

theorem code_of_store (isStore : opcode ∈ stores)
    (made : site.step index ⟨opcode, operand⟩ labels stack = .ok fragment) :
    ∃ access, site.access? operand = some access ∧ fragment.code = pulls access.places := by
  simp only [stores, List.mem_cons, List.not_mem_nil, or_false] at isStore
  rcases isStore with rfl | rfl | rfl <;> cases lowered_of_step made with
  | store _ slot => exact ⟨_, Option.map_eq_some_iff.mpr ⟨_, slot, rfl⟩, Machine.storeLines_eq _ _⟩
  | _ => simp_all

section Accesses

variable (wellFormed : types.WellFormed) (part : site.PartOf types graph ram)
include wellFormed part

theorem exact_of_access? (found : site.access? operand = some access) :
    access.CoversSlot types := by
  obtain ⟨type, slot, size⟩ := slot?_of_access? found
  refine Access.coversSlot_of_sized fun few => ?_
  rw [size, part.size_of_slot? wellFormed few slot]

theorem exact_of_passesTo {id : SubroutineId} {callee : Subroutine}
    (found : site.types.subroutine? id = some callee) {n : Nat} {type : ValueType}
    (parameter : callee.parameters[n]? = some type)
    (passes : site.PassesTo callee (type, n) access) : access.CoversSlot types := by
  refine Access.coversSlot_of_sized fun few => ?_
  obtain ⟨bodies, filled⟩ := part.bodies
  have source := found
  rw [filled, Program.subroutine?_withBodies] at source
  obtain ⟨origin, present, rfl⟩ := Option.map_eq_some_iff.mp source
  have fewParameters := (few origin (Program.mem_subroutines.mpr ⟨id, present⟩)).1
  rw [passes.2, part.size_of_argument? wellFormed found fewParameters parameter passes.1]

theorem whole_of_access? (few : types.FewSlots) (found : site.access? operand = some access)
    (small : access.size ≤ 256) : access.Whole site.memory := by
  obtain ⟨type, slot, -⟩ := slot?_of_access? found
  exact ⟨mem_of_slot? slot, (exact_of_access? wellFormed part found).sized few, small⟩

theorem bytewise_of_step {wiring : Wiring}
    (named : ∀ allocation ∈ site.memory.allocations,
      wiring.address allocation.symbol = allocation.address)
    {instruction : Instruction}
    (made : site.step index instruction labels stack = .ok fragment) :
    site.Bytewise types wiring instruction fragment.code := by
  have addresses : ∀ {operand access}, site.access? operand = some access →
      access.places.map wiring.value = access.addresses := by
    intro operand access found
    obtain ⟨type, slot, -⟩ := slot?_of_access? found
    exact Access.value_places (named _ (mem_of_slot? slot))
  refine ⟨?_, ?_, ?_⟩
  · intro isLoad
    obtain ⟨access, found, code⟩ := code_of_load isLoad made
    exact ⟨access, found, exact_of_access? wellFormed part found, _, addresses found, code⟩
  · intro isStore
    obtain ⟨access, found, code⟩ := code_of_store isStore made
    exact ⟨access, found, exact_of_access? wellFormed part found, _, addresses found, code⟩
  · rintro id callee rfl found kept
    have called : site.call index labels stack callee = .ok fragment := by
      simpa only [step, found] using made
    obtain ⟨accesses, control, parts⟩ := parts_of_call kept called
    refine ⟨_, control ++ resultLines callee, accesses, by rw [parts.code, List.append_assoc],
      parts.length, ?_, _, ?_, rfl⟩
    · intro n access listed
      obtain ⟨type, parameter, passes⟩ := parts.passes n access listed
      exact ⟨⟨type, parameter, passes⟩, exact_of_passesTo wellFormed part found parameter passes⟩
    · rw [List.map_flatMap]
      refine List.flatMap_congr fun access member => ?_
      exact Access.value_places (named _ (parts.mem_allocations member))

theorem copiesSlots_of_houses {frame : Frame} (clear : frame.Clear)
    (houses : frame.Houses site.memory) (few : types.FewSlots) : site.CopiesSlots frame := by
  intro index load source labels stack first isLoad made
    next store target labelsToo stackToo second isStore madeToo
  obtain ⟨sourceAccess, foundSource, codeSource⟩ := code_of_load isLoad made
  obtain ⟨targetAccess, foundTarget, codeTarget⟩ := code_of_store isStore madeToo
  refine ⟨sourceAccess, targetAccess, foundSource, foundTarget, ?_⟩
  intro same small cpu below held room
  have sized := (exact_of_access? wellFormed part foundSource).sized few
  have sizedToo := (exact_of_access? wellFormed part foundTarget).sized few
  rw [codeSource, codeTarget]
  exact Machine.runs_copy clear houses
    (whole_of_access? wellFormed part few foundSource (sized ▸ small))
    (whole_of_access? wellFormed part few foundTarget (sizedToo ▸ same ▸ small))
    (by rw [sized, sizedToo, same]) held (sized ▸ room)

end Accesses

/-- The code of an instruction accesses slots byte by byte, and a slot that is loaded and stored
again is copied. -/
theorem slots_accessed_bytewise (wellFormed : types.WellFormed)
    (part : site.PartOf types graph ram) :
    (∀ wiring : Wiring, (∀ allocation ∈ site.memory.allocations,
        wiring.address allocation.symbol = allocation.address) →
      ∀ index instruction labels stack fragment,
        site.step index instruction labels stack = .ok fragment →
        site.Bytewise types wiring instruction fragment.code) ∧
    ∀ frame : Frame, frame.Clear → frame.Houses site.memory → types.FewSlots →
      site.CopiesSlots frame := by
  constructor
  · intro wiring named index instruction labels stack fragment made
    exact bytewise_of_step wellFormed part named made
  · intro frame clear houses few
    exact copiesSlots_of_houses wellFormed part clear houses few

/-- A point at the origin, and nothing on the stack. -/
def copyingCpu : Cpu :=
  { drawingCpu with
    s := 0xFF
    cells := fun cell => if cell = 0x82 then 5 else if cell = 0x83 then 6 else 0 }

theorem slots_accessed_bytewise_drawing :
    ∃ types graph memory main first second source target after,
      types.WellFormed ∧ PartOf ⟨types, memory, main⟩ types graph {} ∧ types.FewSlots ∧
      step ⟨types, memory, main⟩ 0 ⟨.loadStaticField, .field ⟨7, 0⟩⟩ 0 [] = .ok first ∧
      step ⟨types, memory, main⟩ 1 ⟨.storeStaticField, .field ⟨7, 1⟩⟩ 0 first.stack = .ok second ∧
      Bytewise ⟨types, memory, main⟩ types (drawingFrame memory).wiring
        ⟨.loadStaticField, .field ⟨7, 0⟩⟩ first.code ∧
      access? ⟨types, memory, main⟩ (.field ⟨7, 0⟩) = some source ∧
      access? ⟨types, memory, main⟩ (.field ⟨7, 1⟩) = some target ∧
      source.slot.size = 2 ∧ target.slot.size = 2 ∧
      (drawingFrame memory).wiring.run? (first.code ++ second.code) copyingCpu = some after ∧
      (drawingFrame memory).wiring.readAll after.cells target.slot.span = [5, 6] ∧
      Held (drawingFrame memory) [] after := by
  have passed : drawingPasses (fun types memory main =>
      (step ⟨types, memory, main⟩ 0 ⟨.loadStaticField, .field ⟨7, 0⟩⟩ 0
        []).toOption.any fun first =>
      (step ⟨types, memory, main⟩ 1 ⟨.storeStaticField, .field ⟨7, 1⟩⟩ 0
        first.stack).toOption.any fun _ =>
      (access? ⟨types, memory, main⟩ (.field ⟨7, 0⟩)).any fun source =>
      (access? ⟨types, memory, main⟩ (.field ⟨7, 1⟩)).any fun target =>
      decide (source.slot.size = 2 ∧ target.slot.size = 2 ∧
        (drawingFrame memory).wiring.readAll copyingCpu.cells source.slot.span = [5, 6]) &&
      types.subroutines.all fun subroutine =>
        subroutine.parameters.length ≤ 0x10000 ∧ subroutine.locals.length ≤ 0x10000) = true := by
    decide +kernel
  obtain ⟨types, graph, memory, main, wellFormed, part, -, houses, more⟩ :=
    exists_of_drawingPasses passed
  obtain ⟨first, made, more⟩ := exists_of_any more
  obtain ⟨second, madeToo, more⟩ := exists_of_any more
  obtain ⟨source, foundSource, more⟩ := (Option.any_eq_true _ _).mp more
  obtain ⟨target, foundTarget, more⟩ := (Option.any_eq_true _ _).mp more
  simp only [Bool.and_eq_true, decide_eq_true_eq, List.all_eq_true] at more
  obtain ⟨⟨sourceSize, targetSize, point⟩, few⟩ := more
  have clear : (drawingFrame memory).Clear :=
    ⟨Wiring.console_mirrored _,
      (by decide : ∀ first < 4, ∀ second < 4, (drawingFrame {}).stackCell first =
        (drawingFrame {}).stackCell second → first = second)⟩
  have held : Held (drawingFrame memory) [] copyingCpu :=
    ⟨(by decide : (0xFF : UInt8) = 0xFF - 0), Nat.zero_le _, fun _ _ listed => by simp at listed⟩
  obtain ⟨accessed, copied⟩ := slots_accessed_bytewise wellFormed part
  obtain ⟨sourceToo, targetToo, sameSource, sameTarget, runs⟩ :=
    copied _ clear houses few _ _ _ _ _ _ (by decide) made _ _ _ _ _ _ (by decide) madeToo
  obtain rfl := Option.some.inj (foundSource.symm.trans sameSource)
  obtain rfl := Option.some.inj (foundTarget.symm.trans sameTarget)
  obtain ⟨after, ran, reads, heldAfter, -⟩ :=
    runs (by omega) (by omega) copyingCpu [] held (by rw [sourceSize]; exact Nat.le_add_left 2 2)
  exact ⟨types, graph, memory, main, first, second, source, target, after, wellFormed, part, few,
    made, madeToo, accessed _ houses.named _ _ _ _ _ made, foundSource, foundTarget, sourceSize,
    targetSize, ran, reads.trans point, heldAfter⟩

end Site

/-- A slot of 257 bytes. -/
def vast : Source.Module :=
  { types := [
      { name := "Row"
        fields := (List.range 16).map fun n => { name := "c" ++ Text.decimal n, type := "byte" } },
      { name := "Page"
        fields := ((List.range 16).map fun n => { name := "r" ++ Text.decimal n, type := "Row" }) ++
          [{ name := "last", type := "byte" }] },
      { name := "Game"
        fields := [{ name := "A", type := "Page", isStatic := true },
          { name := "B", type := "Page", isStatic := true }]
        subroutines := [
          { name := "Main", isEntry := true
            instructions := [⟨"ldsfld", some (.field ⟨"Game", "A"⟩)⟩,
              ⟨"stsfld", some (.field ⟨"Game", "B"⟩)⟩, ⟨"ret", none⟩] }] }] }

/-- The last byte of the slot is never loaded, and the first one twice. -/
theorem last_byte_missed_vast :
    ∃ program graph memory main slot fragment,
      Program.ofModule vast = .ok program ∧ CallGraph.build program.types = .ok graph ∧
      Memory.Map.allocate program.types graph { extended := ⟨0x1000, 0x1400⟩ } = .ok memory ∧
      program.types.subroutine? program.entry = some main ∧
      memory.field? ⟨7, 0⟩ = some slot ∧ slot.size = 257 ∧
      Site.step ⟨program.types, memory, main⟩ 0 ⟨.loadStaticField, .field ⟨7, 0⟩⟩ 0 [] =
        .ok fragment ∧
      ∀ wiring : Wiring, wiring.address slot.symbol = slot.address →
        (∃ places, fragment.code = pushes places ∧
          slot.address + 256 ∉ places.map wiring.value ∧
          (places.map wiring.value)[0]? = some slot.address ∧
          (places.map wiring.value)[256]? = some slot.address) := by
  have passed : (Program.ofModule vast).toOption.any (fun program =>
      (CallGraph.build program.types).toOption.any fun graph =>
      (Memory.Map.allocate program.types graph
        { extended := ⟨0x1000, 0x1400⟩ }).toOption.any fun memory =>
      (program.types.subroutine? program.entry).any fun main =>
      (memory.field? ⟨7, 0⟩).any fun slot =>
      (Site.step ⟨program.types, memory, main⟩ 0 ⟨.loadStaticField, .field ⟨7, 0⟩⟩ 0
        []).toOption.any fun fragment =>
      decide (slot.size = 257 ∧ fragment.code = pushes (Machine.bytePlaces slot.symbol 257))) =
      true := by
    decide +kernel
  obtain ⟨program, resolved, more⟩ := exists_of_any passed
  obtain ⟨graph, built, more⟩ := exists_of_any more
  obtain ⟨memory, allocated, more⟩ := exists_of_any more
  obtain ⟨main, entry, more⟩ := (Option.any_eq_true _ _).mp more
  obtain ⟨slot, placed, more⟩ := (Option.any_eq_true _ _).mp more
  obtain ⟨fragment, made, more⟩ := exists_of_any more
  obtain ⟨size, code⟩ := of_decide_eq_true more
  refine ⟨program, graph, memory, main, slot, fragment, resolved, built, allocated, entry, placed,
    size, made, fun wiring named => ⟨_, code, ?_⟩⟩
  rw [Machine.value_bytePlaces, named]
  refine ⟨Machine.not_mem_reach _ _, ?_, ?_⟩ <;> simp [Machine.reach]

end Cartridge.Emit
