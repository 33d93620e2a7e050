import Cartridge.Proofs.ByteMoves
import Cartridge.Proofs.StackTracking

/-!
Arguments reach the parameters they are for.

A caller pushes the first argument first, each from its first byte on. Before control is transferred
they are pulled from the last byte of the last one to the first byte of the first one, so that the
slots of all parameters are one row of places that is filled from its end. As no two slots share an
address, what was stored for one parameter is still there when the row is full.
-/

namespace Cartridge.Emit

open Asm (Line)
open Code (EvalStack)
open Machine (Access Bytes Cpu Frame Held pulls pulls_append storeLines_eq)
open Memory (Allocation)
open Program (CallGraph Subroutine TypeTable)

namespace Site

variable {site : Site} {index labels : Nat} {stack : EvalStack} {callee : Subroutine}
  {fragment : Fragment}

/-- Where an argument goes, and how many bytes of it. -/
def PassesTo (site : Site) (callee : Subroutine) (parameter : ValueType × Nat)
    (access : Access) : Prop :=
  site.memory.argument? callee.id (UInt16.ofNat parameter.2) = some access.slot ∧
    access.size = parameter.1.size

theorem storeArguments_eq_ok {parameters : List (ValueType × Nat)}
    {result : List Line × EvalStack}
    (made : site.storeArguments index callee parameters stack = .ok result) :
    ∃ accesses, List.Forall₂ (site.PassesTo callee) parameters.reverse accesses ∧
      result.1 = pulls (accesses.flatMap Access.places) := by
  induction parameters generalizing stack result with
  | nil =>
    obtain rfl := Except.ok.inj made
    exact ⟨[], .nil, rfl⟩
  | cons parameter parameters ih =>
    obtain ⟨popped, -, next⟩ := bind_eq_ok.mp made
    simp only at next
    split at next
    next => contradiction
    next slot found =>
      obtain ⟨rest, stored, last⟩ := bind_eq_ok.mp next
      obtain rfl := pure_eq_ok.mp last
      obtain ⟨accesses, passed, code⟩ := ih stored
      let access : Access := { slot, size := parameter.1.size }
      refine ⟨accesses ++ [access], ?_, ?_⟩
      · rw [List.reverse_cons]
        exact List.rel_append passed (.cons ⟨found, rfl⟩ .nil)
      · rw [List.flatMap_append, List.flatMap_singleton, pulls_append, storeLines_eq, code]
        rfl

/-- Control is transferred by a jump or by a copy of the body. -/
inductive Transfers (site : Site) (labels : Nat) (callee : Subroutine) : List Line → Prop
  | jump (apart : callee.intrinsic? ≠ some .alwaysInline) :
    Transfers site labels callee [.direct .jsr callee.label]
  | copy {body} (marked : callee.intrinsic? = some .alwaysInline)
    (present : callee.body? = some body) :
    Transfers site labels callee (splice (site.numberedLabel "Inline" (labels + 1)) body).code

theorem transfers_of_transfer (made : site.transfer labels stack callee = .ok fragment) :
    site.Transfers labels callee fragment.code := by
  unfold transfer at made
  split at made
  next marked =>
    split at made
    next => contradiction
    next body present =>
      obtain rfl := Except.ok.inj made
      exact .copy marked present
  next apart =>
    obtain rfl := Except.ok.inj made
    exact .jump apart

theorem call_eq_callBody (kept : callee.replacesCall = false) :
    site.call index labels stack callee = site.callBody index labels stack callee := by
  unfold call
  split <;> simp_all [Subroutine.replacesCall, Program.Intrinsic.replacesCall]

/-- What a call that passes arguments consists of. -/
structure CallParts (site : Site) (labels : Nat) (stack : EvalStack) (callee : Subroutine)
    (fragment : Fragment) (accesses : List Access) (control : List Line) : Prop where
  length : accesses.length = callee.parameters.length
  passes : ∀ n access, accesses[n]? = some access →
    ∃ type, callee.parameters[n]? = some type ∧ site.PassesTo callee (type, n) access
  code : fragment.code = pulls (accesses.flatMap Access.places) ++ control ++ resultLines callee
  transfers : site.Transfers labels callee control
  enough : callee.parameters.length ≤ stack.length
  stack : fragment.stack =
    (if callee.returns.isVoid then [] else [callee.returns]) ++ stack.drop callee.parameters.length

theorem parts_of_call (kept : callee.replacesCall = false)
    (made : site.call index labels stack callee = .ok fragment) :
    ∃ accesses control, site.CallParts labels stack callee fragment accesses control := by
  rw [call_eq_callBody kept] at made
  obtain ⟨enough, below⟩ := callBody_stack made
  unfold callBody at made
  split at made
  next => contradiction
  next =>
    obtain ⟨⟨passing, rest⟩, stored, next⟩ := bind_eq_ok.mp made
    obtain ⟨transferred, transfers, last⟩ := bind_eq_ok.mp next
    obtain ⟨accesses, passed, code⟩ := storeArguments_eq_ok stored
    rw [List.reverse_reverse] at passed
    obtain ⟨length, each⟩ := List.forall₂_iff_get.mp passed
    rw [List.length_zipIdx] at length
    refine ⟨accesses, transferred.code, length.symm, ?_, ?_, transfers_of_transfer transfers,
      enough, below⟩
    · intro n access found
      obtain ⟨inside, rfl⟩ := List.getElem?_eq_some_iff.mp found
      have here := each n (by rwa [List.length_zipIdx, length]) inside
      rw [List.get_eq_getElem, List.getElem_zipIdx, Nat.zero_add] at here
      exact ⟨_, List.getElem?_eq_getElem (length ▸ inside), here⟩
    · rw [← code]
      split at last
      next void =>
        obtain rfl := pure_eq_ok.mp last
        simp [resultLines, void]
      next filled =>
        obtain rfl := pure_eq_ok.mp last
        simp [resultLines, filled]

namespace CallParts

variable {accesses : List Access} {control : List Line}

theorem mem_allocations (parts : site.CallParts labels stack callee fragment accesses control)
    {access : Access} (member : access ∈ accesses) : access.slot ∈ site.memory.allocations := by
  obtain ⟨n, found⟩ := List.getElem?_of_mem member
  obtain ⟨type, -, placed, -⟩ := parts.passes n access found
  exact mem_of_find? placed

variable {types : TypeTable} {graph : CallGraph} {ram : Memory.Ram}

/-- Parameters that are numbered apart have slots that share no address. -/
theorem pairwise_disjoint (parts : site.CallParts labels stack callee fragment accesses control)
    (part : site.PartOf types graph ram) (few : callee.parameters.length ≤ 0x10000)
    (disjoint : site.memory.allocations.Pairwise fun first second =>
      first.span.Disjoint second.span) :
    accesses.Pairwise fun first second => first.slot.span.Disjoint second.slot.span := by
  rw [List.pairwise_iff_getElem] at disjoint ⊢
  intro n m below belowToo before
  obtain ⟨type, -, first, -⟩ := parts.passes n _ (List.getElem?_eq_getElem below)
  obtain ⟨other, -, second, -⟩ := parts.passes m _ (List.getElem?_eq_getElem belowToo)
  have differ : Memory.Slot.argument callee.id (UInt16.ofNat n) ≠
      .argument callee.id (UInt16.ofNat m) := by
    intro same
    rw [parts.length] at below belowToo
    exact Nat.ne_of_lt before
      (Memory.eq_of_ofNat_eq few below belowToo (Memory.Slot.argument.inj same).2)
  obtain ⟨position, place, placed, placedToo, apart⟩ :=
    Memory.position_ne part.memory differ first second
  obtain ⟨inside, here⟩ := List.getElem?_eq_some_iff.mp placed
  obtain ⟨insideToo, there⟩ := List.getElem?_eq_some_iff.mp placedToo
  rw [← here, ← there]
  rcases Nat.lt_or_gt_of_ne apart with earlier | later
  · exact disjoint position place inside insideToo earlier
  · exact fun _ here there => disjoint place position insideToo inside later there here

theorem nodup_span (parts : site.CallParts labels stack callee fragment accesses control)
    (part : site.PartOf types graph ram) (few : callee.parameters.length ≤ 0x10000)
    (disjoint : site.memory.allocations.Pairwise fun first second =>
      first.span.Disjoint second.span)
    (small : ∀ access ∈ accesses, access.slot.size ≤ 256) :
    (accesses.flatMap fun access => access.slot.span).Nodup := by
  refine List.nodup_flatMap.mpr ⟨?_, parts.pairwise_disjoint part few disjoint⟩
  intro access member
  exact Machine.slotSpan_nodup _ (Nat.le_trans (small access member) (by decide))

theorem sizes_eq (parts : site.CallParts labels stack callee fragment accesses control)
    (part : site.PartOf types graph ram) (wellFormed : types.WellFormed) {id : SubroutineId}
    (found : site.types.subroutine? id = some callee)
    (few : callee.parameters.length ≤ 0x10000) :
    accesses.map (fun access => access.slot.size) = callee.parameters.map ValueType.size := by
  refine List.ext_getElem? fun n => ?_
  rw [List.getElem?_map, List.getElem?_map]
  cases listed : accesses[n]? with
  | none =>
    rw [List.getElem?_eq_none (parts.length ▸ List.getElem?_eq_none_iff.mp listed)]
    rfl
  | some access =>
    obtain ⟨type, parameter, placed, -⟩ := parts.passes n access listed
    rw [parameter, Option.map_some, Option.map_some,
      part.size_of_argument? wellFormed found few parameter placed]

theorem whole (parts : site.CallParts labels stack callee fragment accesses control)
    (part : site.PartOf types graph ram) (wellFormed : types.WellFormed) {id : SubroutineId}
    (found : site.types.subroutine? id = some callee)
    (few : callee.parameters.length ≤ 0x10000)
    (small : ∀ type ∈ callee.parameters, type.size ≤ 256) {access : Access}
    (member : access ∈ accesses) : access.Whole site.memory := by
  obtain ⟨n, listed⟩ := List.getElem?_of_mem member
  obtain ⟨type, parameter, placed, size⟩ := parts.passes n access listed
  refine ⟨parts.mem_allocations member, ?_, ?_⟩
  · rw [size, part.size_of_argument? wellFormed found few parameter placed]
  · rw [size]
    exact small type (List.mem_of_getElem? parameter)

end CallParts

/-- The code of a call moves each argument into the slot of its parameter and takes nothing else
from the stack, before control is transferred. What is tracked changes accordingly, with a result
where a byte is pushed for it. -/
theorem arguments_reach_parameters {types : TypeTable} {graph : CallGraph} {ram : Memory.Ram}
    (wellFormed : types.WellFormed) (part : site.PartOf types graph ram)
    (disjoint : site.memory.allocations.Pairwise fun first second =>
      first.span.Disjoint second.span)
    {id : SubroutineId} (found : site.types.subroutine? id = some callee)
    (kept : callee.replacesCall = false) (few : callee.parameters.length ≤ 0x10000)
    (small : ∀ type ∈ callee.parameters, type.size ≤ 256)
    (made : site.step index ⟨.call, .method id⟩ labels stack = .ok fragment) :
    ∃ (passing control result : List Line) (slots : List Allocation),
      fragment.code = passing ++ control ++ result ∧
      site.Transfers labels callee control ∧
      callee.parameters.length ≤ stack.length ∧
      (result = [] ∧ fragment.stack = stack.drop callee.parameters.length ∨
        result = [.op .pha] ∧
          fragment.stack = callee.returns :: stack.drop callee.parameters.length) ∧
      slots.map Allocation.size = callee.parameters.map ValueType.size ∧
      (∀ n slot, slots[n]? = some slot →
        site.memory.argument? callee.id (UInt16.ofNat n) = some slot) ∧
      ∀ (frame : Frame) (cpu : Cpu) (below : List UInt8) (arguments : List Bytes),
        frame.Houses site.memory →
        arguments.map List.length = callee.parameters.map ValueType.size →
        Held frame (below ++ arguments.flatten) cpu →
        frame.wiring.Runs passing cpu fun after =>
          (slots.map fun slot => frame.wiring.readAll after.cells slot.span) = arguments ∧
          Held frame below after ∧
          ∀ cell, cell ∉ (slots.flatMap Allocation.span).map frame.wiring.cell →
            after.cells cell = cpu.cells cell := by
  have called : site.call index labels stack callee = .ok fragment := by
    simpa only [step, found] using made
  obtain ⟨accesses, control, parts⟩ := parts_of_call kept called
  have sizes := parts.sizes_eq part wellFormed found few
  have whole : ∀ access ∈ accesses, access.Whole site.memory :=
    fun access => parts.whole part wellFormed found few small
  have distinct := parts.nodup_span part few disjoint fun access member =>
    (whole access member).whole ▸ (whole access member).small
  refine ⟨_, control, _, accesses.map Access.slot, parts.code, parts.transfers, parts.enough, ?_,
    by rw [List.map_map]; exact sizes, ?_, ?_⟩
  · rw [parts.stack, resultLines]
    cases callee.returns.isVoid <;> simp
  · intro n slot listed
    rw [List.getElem?_map] at listed
    obtain ⟨access, here, rfl⟩ := Option.map_eq_some_iff.mp listed
    obtain ⟨type, -, placed, -⟩ := parts.passes n access here
    exact placed
  · intro frame cpu below arguments houses fits held
    simp only [List.map_map, List.flatMap_map]
    exact Machine.runs_into_slots houses whole distinct (fits.trans sizes.symm) held

end Site

/-- A copy of two bytes, and a call with arguments of two bytes, none and one. -/
def drawing : Source.Module :=
  { types := [
      { name := "Point"
        fields := [{ name := "x", type := "byte" }, { name := "y", type := "byte" }] },
      { name := "Layer" },
      { name := "Game"
        fields := [{ name := "Origin", type := "Point", isStatic := true },
          { name := "Corner", type := "Point", isStatic := true },
          { name := "Front", type := "Layer", isStatic := true }]
        subroutines := [
          { name := "Main", isEntry := true
            instructions := [⟨"ldsfld", some (.field ⟨"Game", "Origin"⟩)⟩,
              ⟨"stsfld", some (.field ⟨"Game", "Corner"⟩)⟩,
              ⟨"ldsfld", some (.field ⟨"Game", "Corner"⟩)⟩,
              ⟨"ldsfld", some (.field ⟨"Game", "Front"⟩)⟩, ⟨"ldc", some (.constant 7)⟩,
              ⟨"call", some (.method ⟨"Game", "Plot"⟩)⟩, ⟨"pop", none⟩, ⟨"ret", none⟩] },
          { name := "Plot", parameters := ["Point", "Layer", "byte"], returns := "byte"
            instructions := [⟨"ldarg", some (.argument 2)⟩, ⟨"ret", none⟩] }] }] }

def drawingFrame (memory : Memory.Map) : Frame :=
  { wiring := .console fun symbol =>
      ((memory.allocations.find? fun allocation => allocation.symbol == symbol).map
        (·.address)).getD 0
    base := 0xFF
    depth := 4 }

/-- Whether the module can be laid out in the frame, and then passes a check on its types, its
memory and its entry point. -/
def drawingPasses (check : TypeTable → Memory.Map → Subroutine → Bool) : Bool :=
  (Program.ofModule drawing).toOption.any fun program =>
    (CallGraph.build program.types).toOption.any fun graph =>
    (Memory.Map.allocate program.types graph {}).toOption.any fun memory =>
    (program.types.subroutine? program.entry).any fun main =>
      decide (memory.span.Nodup ∧ (memory.span.map (drawingFrame memory).wiring.cell).Nodup) &&
      memory.allocations.all (fun allocation =>
        (drawingFrame memory).wiring.address allocation.symbol = allocation.address) &&
      memory.span.all (fun address =>
        ¬(drawingFrame memory).OnStack ((drawingFrame memory).wiring.cell address)) &&
      check program.types memory main

theorem exists_of_drawingPasses {check : TypeTable → Memory.Map → Subroutine → Bool}
    (passed : drawingPasses check = true) :
    ∃ types graph memory main, types.WellFormed ∧
      Site.PartOf ⟨types, memory, main⟩ types graph {} ∧
      (memory.allocations.Pairwise fun first second => first.span.Disjoint second.span) ∧
      (drawingFrame memory).Houses memory ∧ check types memory main = true := by
  obtain ⟨program, resolved, more⟩ := exists_of_any passed
  obtain ⟨graph, -, more⟩ := exists_of_any more
  obtain ⟨memory, allocated, more⟩ := exists_of_any more
  obtain ⟨main, entry, more⟩ := (Option.any_eq_true _ _).mp more
  simp only [Bool.and_eq_true, decide_eq_true_eq, List.all_eq_true] at more
  obtain ⟨⟨⟨⟨distinct, apart⟩, named⟩, off⟩, checked⟩ := more
  have wellFormed := (Program.ofModule_eq_ok resolved).1
  refine ⟨program.types, graph, memory, main, wellFormed, ⟨⟨fun _ => none, ?_⟩, ?_, allocated⟩,
    (List.nodup_flatMap.mp distinct).2, ⟨named, ?_, off⟩, checked⟩
  · exact (Program.withBodies_none wellFormed).symm
  · rwa [wellFormed.subroutineId _ _ entry]
  · exact fun first member second other => List.inj_on_of_nodup_map apart member other

/-- A byte of the caller, and the arguments above it. -/
def drawingCpu : Cpu :=
  { a := 0, x := 0, y := 0, s := 0xFB
    flags := { carry := false, zero := false, interrupt := false, decimal := false
               overflow := false, negative := false }
    cells := fun cell =>
      if cell = 0xFF then 9 else if cell = 0xFE then 3 else if cell = 0xFD then 4
      else if cell = 0xFC then 7 else 0 }

theorem Site.arguments_reach_parameters_plot :
    ∃ types graph memory main plot fragment passing control result after,
      ∃ slots : List Allocation, types.WellFormed ∧
      Site.PartOf ⟨types, memory, main⟩ types graph {} ∧
      types.subroutine? ⟨7, 1⟩ = some plot ∧ plot.parameters.map ValueType.size = [2, 0, 1] ∧
      Site.step ⟨types, memory, main⟩ 5 ⟨.call, .method ⟨7, 1⟩⟩ 0 plot.parameters.reverse =
        .ok fragment ∧
      fragment.code = passing ++ control ++ result ∧
      (drawingFrame memory).wiring.run? passing drawingCpu = some after ∧
      (slots.map fun slot => (drawingFrame memory).wiring.readAll after.cells slot.span) =
        [[3, 4], [], [7]] ∧
      Held (drawingFrame memory) [9] after := by
  have passed : drawingPasses (fun types memory main =>
      (types.subroutine? ⟨7, 1⟩).any fun plot =>
      (Site.step ⟨types, memory, main⟩ 5 ⟨.call, .method ⟨7, 1⟩⟩ 0
        plot.parameters.reverse).toOption.any fun _ =>
      decide (plot.replacesCall = false ∧ plot.parameters.map ValueType.size = [2, 0, 1])) =
      true := by
    decide +kernel
  obtain ⟨types, graph, memory, main, wellFormed, part, disjoint, houses, more⟩ :=
    exists_of_drawingPasses passed
  obtain ⟨plot, found, more⟩ := (Option.any_eq_true _ _).mp more
  obtain ⟨fragment, made, more⟩ := exists_of_any more
  obtain ⟨kept, sizes⟩ := of_decide_eq_true more
  have count : plot.parameters.length = 3 := by simpa using congrArg List.length sizes
  have small : ∀ size ∈ plot.parameters.map ValueType.size, size ≤ 256 := by
    rw [sizes]
    decide
  have held : Held (drawingFrame memory) ([9] ++ [[3, 4], [], [7]].flatten) drawingCpu := by
    have cells : ∀ pushed < 4, some (drawingCpu.cells ((drawingFrame {}).stackCell pushed)) =
        [9, 3, 4, 7][pushed]? := by decide
    refine ⟨(by decide : (0xFB : UInt8) = 0xFF - 4), Nat.le_refl 4, ?_⟩
    intro pushed byte listed
    have below := (List.getElem?_eq_some_iff.mp listed).1
    exact Option.some.inj ((cells pushed below).trans listed)
  obtain ⟨passing, control, result, slots, code, -, -, -, -, -, runs⟩ :=
    Site.arguments_reach_parameters wellFormed part disjoint found kept (by omega)
      (fun type member => small _ (List.mem_map_of_mem member)) made
  obtain ⟨after, ran, reached, heldAfter, -⟩ := runs _ _ _ _ houses (by rw [sizes]; rfl) held
  exact ⟨types, graph, memory, main, plot, fragment, passing, control, result, after, slots,
    wellFormed, part, found, sizes, made, code, ran, reached, heldAfter⟩

end Cartridge.Emit
