import Cartridge.Proofs.Displacement
import Cartridge.Proofs.SlotSizes

/-!
Bytes on their way to the hardware stack and back.

Values are pushed from their first byte to their last and pulled in the opposite order. A row of
places that bytes are pulled into may therefore be cut anywhere: its last part is filled first. Code
that pulls changes nothing in memory but those places, and code that pushes nothing but the stack.
-/

namespace Cartridge.Memory

def Allocation.span (allocation : Allocation) : List UInt16 :=
  Machine.slotSpan allocation.address allocation.size

def Map.span (memory : Map) : List UInt16 :=
  memory.allocations.flatMap Allocation.span

end Cartridge.Memory

namespace Cartridge.Machine

open Asm (Line Symbol Value)
open Emit (loadLines storeLines)

/-- Pushes the bytes of some places, the first one first. -/
def pushes (places : List Value) : List Line :=
  places.flatMap fun place => [.on .lda .direct place, .op .pha]

/-- Pulls bytes into some places, the last one first. -/
def pulls (places : List Value) : List Line :=
  places.reverse.flatMap fun place => [.op .pla, .on .sta .direct place]

theorem pulls_append (first second : List Value) :
    pulls (first ++ second) = pulls second ++ pulls first := by
  rw [pulls, List.reverse_append, List.flatMap_append]
  rfl

def bytePlaces (symbol : Symbol) (size : Nat) : List Value :=
  (List.range size).map fun k => Value.byteOf symbol k size

theorem loadLines_eq (symbol : Symbol) (size : Nat) :
    loadLines symbol size = pushes (bytePlaces symbol size) := by
  rw [loadLines, pushes, bytePlaces, List.flatMap_map]

theorem storeLines_eq (symbol : Symbol) (size : Nat) :
    storeLines symbol size = pulls (bytePlaces symbol size) := by
  rw [storeLines, pulls, bytePlaces, ← List.map_reverse, List.flatMap_map]

/-- The addresses of these places. The distance of a byte is written in eight bits. -/
def reach (address : UInt16) (size : Nat) : List UInt16 :=
  (List.range size).map fun k => address + UInt16.ofNat (k % 256)

theorem value_bytePlaces (wiring : Wiring) (symbol : Symbol) (size : Nat) :
    (bytePlaces symbol size).map wiring.value = reach (wiring.address symbol) size := by
  rw [bytePlaces, List.map_map]
  exact List.map_congr_left fun k inside =>
    value_byteOf_narrowed wiring symbol (List.mem_range.mp inside)

theorem reach_eq_slotSpan_iff (address : UInt16) (size : Nat) :
    reach address size = slotSpan address size ↔ size ≤ 256 := by
  constructor
  · intro same
    by_contra wide
    have here := congrArg (·[256]?) same
    simp only [reach, slotSpan, List.getElem?_map, List.getElem?_range (Nat.not_le.mp wide),
      Option.map_some, Option.some.injEq] at here
    have distance : UInt16.ofNat (256 % 256) = UInt16.ofNat 256 := (UInt16.add_right_inj _).mp here
    contradiction
  · intro small
    refine List.map_congr_left fun k inside => ?_
    rw [Nat.mod_eq_of_lt (Nat.lt_of_lt_of_le (List.mem_range.mp inside) small)]

theorem not_mem_reach (address : UInt16) (size : Nat) : address + 256 ∉ reach address size := by
  intro member
  obtain ⟨k, -, same⟩ := List.mem_map.mp member
  have distance := congrArg UInt16.toNat ((UInt16.add_right_inj _).mp same)
  rw [UInt16.toNat_ofNat', show (256 : UInt16).toNat = 256 from rfl] at distance
  omega

/-- A slot and how many bytes of it are moved. -/
structure Access where
  slot : Memory.Allocation
  size : Nat

namespace Access

def places (access : Access) : List Value :=
  bytePlaces access.slot.symbol access.size

def addresses (access : Access) : List UInt16 :=
  reach access.slot.address access.size

theorem value_places {wiring : Wiring} {access : Access}
    (named : wiring.address access.slot.symbol = access.slot.address) :
    access.places.map wiring.value = access.addresses := by
  rw [places, value_bytePlaces, named, addresses]

end Access

theorem slotSpan_nodup (address : UInt16) {size : Nat} (fits : size ≤ 0x10000) :
    (slotSpan address size).Nodup := by
  refine List.Nodup.map_on ?_ List.nodup_range
  intro first inside second insideToo same
  exact Memory.eq_of_ofNat_eq fits (List.mem_range.mp inside) (List.mem_range.mp insideToo)
    ((UInt16.add_right_inj _).mp same)

section Memory

variable {wiring : Wiring} {cells : Cells} {span : List UInt16} {value : Bytes}

theorem writeAll_elsewhere {cell : UInt16} (other : cell ∉ span.map wiring.cell) :
    wiring.writeAll cells span value cell = cells cell := by
  induction span generalizing value with
  | nil => rfl
  | cons address span ih =>
    cases value with
    | nil => rfl
    | cons byte value =>
      rw [List.map_cons, List.mem_cons, not_or] at other
      rw [Wiring.writeAll, Wiring.write_other other.1]
      exact ih other.2

theorem readAll_writeAll (distinct : (span.map wiring.cell).Nodup)
    (sized : value.length = span.length) :
    wiring.readAll (wiring.writeAll cells span value) span = value := by
  induction span generalizing value with
  | nil => exact (List.eq_nil_of_length_eq_zero sized).symm
  | cons address span ih =>
    cases value with
    | nil => contradiction
    | cons byte value =>
      obtain ⟨other, rest⟩ := List.nodup_cons.mp distinct
      have later : wiring.readAll (wiring.write (wiring.writeAll cells span value) address byte)
          span = wiring.readAll (wiring.writeAll cells span value) span := by
        refine List.map_congr_left fun place member => Wiring.write_other ?_
        intro same
        exact other (same ▸ List.mem_map_of_mem member)
      rw [Wiring.writeAll, Wiring.readAll, List.map_cons, ← Wiring.readAll, later,
        ih rest (Nat.succ.inj sized), Wiring.read, Wiring.write, Function.update_self]

end Memory

/-- Where allocations are found by their symbols, in cells of their own that the stack does not
use. -/
structure Frame.Houses (frame : Frame) (memory : Memory.Map) : Prop where
  named : ∀ allocation ∈ memory.allocations,
    frame.wiring.address allocation.symbol = allocation.address
  separate : ∀ first ∈ memory.span, ∀ second ∈ memory.span,
    frame.wiring.cell first = frame.wiring.cell second → first = second
  off : ∀ address ∈ memory.span, ¬frame.OnStack (frame.wiring.cell address)

section Moves

variable {frame : Frame} {places : List Value} {bytes : List UInt8} {cpu : Cpu}

theorem runs_pushes (clear : frame.Clear) (held : Held frame bytes cpu)
    (off : ∀ address ∈ places.map frame.wiring.value,
      ¬frame.OnStack (frame.wiring.cell address))
    (room : bytes.length + places.length ≤ frame.depth) :
    frame.wiring.Runs (pushes places) cpu fun after =>
      Held frame (bytes ++ frame.wiring.readAll cpu.cells (places.map frame.wiring.value)) after ∧
        ∀ cell, ¬frame.OnStack cell → after.cells cell = cpu.cells cell := by
  induction places generalizing bytes cpu with
  | nil => exact .nil ⟨by simpa [Wiring.readAll] using held, fun _ _ => rfl⟩
  | cons place places ih =>
    rw [List.map_cons, List.forall_mem_cons] at off
    rw [List.length_cons] at room
    have below : bytes.length < frame.depth := by omega
    let byte := frame.wiring.read cpu.cells (frame.wiring.value place)
    have loaded : Held frame bytes (cpu.loadA byte) := held.silent rfl rfl
    have pushed := loaded.push clear below byte
    have kept : ∀ cell, ¬frame.OnStack cell →
        (frame.wiring.push (cpu.loadA byte) byte).cells cell = cpu.cells cell :=
      fun cell outside => loaded.push_elsewhere below byte outside
    have same : frame.wiring.readAll (frame.wiring.push (cpu.loadA byte) byte).cells
        (places.map frame.wiring.value) =
        frame.wiring.readAll cpu.cells (places.map frame.wiring.value) :=
      List.map_congr_left fun address member => kept _ (off.2 address member)
    refine .cons (execute?_takes rfl rfl) (.cons rfl ?_)
    refine (ih pushed off.2 (by simpa [Nat.add_assoc, Nat.add_comm 1] using room)).mono ?_
    rintro after ⟨heldAfter, keptAfter⟩
    rw [same, List.append_assoc] at heldAfter
    exact ⟨heldAfter, fun cell outside => (keptAfter cell outside).trans (kept cell outside)⟩

theorem runs_pulls {value : Bytes} (sized : value.length = places.length)
    (held : Held frame (bytes ++ value) cpu)
    (off : ∀ address ∈ places.map frame.wiring.value,
      ¬frame.OnStack (frame.wiring.cell address)) :
    frame.wiring.Runs (pulls places) cpu fun after =>
      after.cells = frame.wiring.writeAll cpu.cells (places.map frame.wiring.value) value ∧
        Held frame bytes after := by
  -- The last place is filled first, so the induction takes places from the end.
  induction places using List.reverseRecOn generalizing value cpu with
  | nil =>
    obtain rfl := List.eq_nil_of_length_eq_zero sized
    exact .nil ⟨rfl, by simpa using held⟩
  | append_singleton places place ih =>
    rcases List.eq_nil_or_concat value with rfl | ⟨front, last, rfl⟩
    · simp at sized
    rw [List.concat_eq_append] at sized held ⊢
    have shorter : front.length = places.length := by simpa using sized
    rw [List.map_append, List.map_singleton] at off ⊢
    rw [← List.append_assoc] at held
    have pulled : Held frame (bytes ++ front) ({ cpu with s := cpu.s + 1 }.loadA last) :=
      held.pull.silent rfl rfl
    have stored := pulled.write (off _ (List.mem_append_right _ (List.mem_singleton_self _))) last
    rw [pulls_append, writeAll_concat (by simpa using shorter)]
    refine .cons (congrArg some (congrArg _ held.top_eq)) (.cons (execute?_stores rfl rfl) ?_)
    exact ih shorter stored fun address member => off address (List.mem_append_left _ member)

/-- A slot of which all bytes are moved, and within reach. -/
structure Access.Whole (access : Access) (memory : Memory.Map) : Prop where
  allocated : access.slot ∈ memory.allocations
  whole : access.size = access.slot.size
  small : access.size ≤ 256

theorem Access.Whole.addresses_eq {access : Access} {memory : Memory.Map}
    (whole : access.Whole memory) : access.addresses = access.slot.span := by
  rw [addresses, (reach_eq_slotSpan_iff _ _).mpr whole.small, whole.whole, Memory.Allocation.span]

variable {memory : Memory.Map} {accesses : List Access}

theorem value_flatMap_places (houses : frame.Houses memory)
    (whole : ∀ access ∈ accesses, access.Whole memory) :
    (accesses.flatMap Access.places).map frame.wiring.value =
      accesses.flatMap fun access => access.slot.span := by
  rw [List.map_flatMap]
  refine List.flatMap_congr fun access member => ?_
  have here := whole access member
  rw [Access.value_places (houses.named _ here.allocated), here.addresses_eq]

/-- Values go from the stack into slots that share no address, each into the one that stands where
it does, and nothing else changes. -/
theorem runs_into_slots (houses : frame.Houses memory)
    (whole : ∀ access ∈ accesses, access.Whole memory)
    (distinct : (accesses.flatMap fun access => access.slot.span).Nodup) {values : List Bytes}
    (sized : values.map List.length = accesses.map fun access => access.slot.size)
    (held : Held frame (bytes ++ values.flatten) cpu) :
    frame.wiring.Runs (pulls (accesses.flatMap Access.places)) cpu fun after =>
      (accesses.map fun access => frame.wiring.readAll after.cells access.slot.span) = values ∧
        Held frame bytes after ∧
        ∀ cell, cell ∉ (accesses.flatMap fun access => access.slot.span).map frame.wiring.cell →
          after.cells cell = cpu.cells cell := by
  have addresses := value_flatMap_places houses whole
  have inside : ∀ address ∈ accesses.flatMap fun access => access.slot.span,
      address ∈ memory.span := by
    intro address member
    obtain ⟨access, listed, here⟩ := List.mem_flatMap.mp member
    exact List.mem_flatMap.mpr ⟨access.slot, (whole access listed).allocated, here⟩
  have length : values.flatten.length = (accesses.flatMap Access.places).length := by
    have spans : (accesses.flatMap fun access => access.slot.span).length =
        (accesses.map fun access => access.slot.size).sum := by
      simp [List.length_flatMap, Memory.Allocation.span, slotSpan_length]
    rw [List.length_flatten, sized, ← spans, ← addresses, List.length_map]
  have cellsDistinct : ((accesses.flatMap fun access => access.slot.span).map
      frame.wiring.cell).Nodup :=
    distinct.map_on fun first member second memberToo =>
      houses.separate first (inside first member) second (inside second memberToo)
  refine (runs_pulls length held ?_).mono ?_
  · rw [addresses]
    exact fun address member => houses.off address (inside address member)
  rintro after ⟨cells, heldAfter⟩
  rw [addresses] at cells
  refine ⟨?_, heldAfter, fun cell other => by rw [cells, writeAll_elsewhere other]⟩
  -- All bytes are there in a row, and the slots cut it where the values do.
  have row : frame.wiring.readAll after.cells (accesses.flatMap fun access => access.slot.span) =
      values.flatten := by
    rw [cells, readAll_writeAll cellsDistinct (by rw [length, ← addresses, List.length_map])]
  refine List.eq_iff_flatten_eq.mpr ⟨?_, ?_⟩
  · rw [← row, Wiring.readAll, List.map_flatMap, List.flatMap_def]
    rfl
  · rw [sized, List.map_map]
    refine List.map_congr_left fun access _ => ?_
    rw [Function.comp_apply, readAll_length, Memory.Allocation.span, slotSpan_length]

end Moves

end Cartridge.Machine
