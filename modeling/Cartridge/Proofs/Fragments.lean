import Cartridge.Proofs.Representation
import Mathlib.Data.List.Induction

/-!
What the pieces of code do that instructions are made of.

Each statement takes a processor that holds the bytes on top of a stack and the memory of a run, and
says what it holds after the piece. Bytes are pushed and pulled by loops that were unrolled when the
code was made, so the statements about them go by induction on the number of bytes.
-/

namespace Cartridge.Machine

open Asm (Instruction Line Mnemonic Symbol Value)
open Emit (indexedByte loadLines storeLines)

/-- Lines that run to their end and leave the processor in a certain state. -/
def Wiring.Runs (wiring : Wiring) (lines : List Line) (cpu : Cpu) (post : Cpu → Prop) : Prop :=
  ∃ after, wiring.run? lines cpu = some after ∧ post after

namespace Wiring.Runs

variable {wiring : Wiring} {lines : List Line} {cpu : Cpu} {post : Cpu → Prop}

theorem nil (holds : post cpu) : wiring.Runs [] cpu post :=
  ⟨cpu, rfl, holds⟩

theorem cons {instruction : Instruction} {next : Cpu}
    (executed : wiring.execute? instruction cpu = some next) (rest : wiring.Runs lines next post) :
    wiring.Runs (.instruction instruction :: lines) cpu post := by
  obtain ⟨after, ran, holds⟩ := rest
  exact ⟨after, by rw [Wiring.run?, executed]; exact ran, holds⟩

theorem label {symbol : Symbol} (rest : wiring.Runs lines cpu post) :
    wiring.Runs (.label symbol :: lines) cpu post :=
  rest

theorem append {more : List Line} {between : Cpu → Prop}
    (first : wiring.Runs lines cpu between)
    (rest : ∀ next, between next → wiring.Runs more next post) :
    wiring.Runs (lines ++ more) cpu post := by
  obtain ⟨next, ran, holds⟩ := first
  obtain ⟨after, ranRest, holdsRest⟩ := rest next holds
  refine ⟨after, ?_, holdsRest⟩
  rw [run?_append, ran]
  exact ranRest

theorem mono {weaker : Cpu → Prop} (runs : wiring.Runs lines cpu post)
    (implies : ∀ after, post after → weaker after) : wiring.Runs lines cpu weaker := by
  obtain ⟨after, ran, holds⟩ := runs
  exact ⟨after, ran, implies after holds⟩

end Wiring.Runs

theorem execute?_takes {wiring : Wiring} {cpu after : Cpu} {mnemonic : Mnemonic} {mode : Asm.Mode}
    {value : Value} {address : UInt16}
    (effective : wiring.effective? cpu (.addressed mode value) = some address)
    (taken : cpu.take? (wiring.read cpu.cells address) mnemonic = some after) :
    wiring.execute? ⟨mnemonic, .addressed mode value⟩ cpu = some after := by
  have operand : wiring.operand? cpu (.addressed mode value) =
      some (wiring.read cpu.cells address) := by
    cases mode <;> simp_all [Wiring.operand?, Wiring.effective?]
  cases mnemonic <;> first
    | contradiction
    | simpa [Wiring.execute?, Cpu.stored?, change?, operand] using taken

theorem execute?_stores {wiring : Wiring} {cpu : Cpu} {mnemonic : Mnemonic} {mode : Asm.Mode}
    {value : Value} {address : UInt16} {byte : UInt8}
    (effective : wiring.effective? cpu (.addressed mode value) = some address)
    (stored : cpu.stored? mnemonic = some byte) :
    wiring.execute? ⟨mnemonic, .addressed mode value⟩ cpu =
      some { cpu with cells := wiring.write cpu.cells address byte } := by
  simp [Wiring.execute?, stored, effective]

section Pieces

variable {frame : Frame} {cells : Cells} {bytes : List UInt8} {cpu : Cpu} {lines : List Line}
  {post : Cpu → Prop}

structure Pulled (cpu next : Cpu) (byte : UInt8) : Prop where
  a : next.a = byte
  x : next.x = cpu.x
  y : next.y = cpu.y
  cells : next.cells = cpu.cells
  zero : next.flags.zero = (byte == 0)

theorem runs_pull {byte : UInt8} (represents : Represents frame cells (bytes ++ [byte]) cpu)
    (rest : ∀ next, Represents frame cells bytes next → Pulled cpu next byte →
      frame.wiring.Runs lines next post) :
    frame.wiring.Runs (.op .pla :: lines) cpu post := by
  refine .cons rfl ?_
  have pulled := represents.top_eq
  refine rest _ (represents.pull.silent rfl rfl rfl) ⟨pulled, rfl, rfl, rfl, ?_⟩
  rw [← pulled]
  rfl

theorem runs_push (sound : frame.ClearOfTemporary) (represents : Represents frame cells bytes cpu)
    (room : bytes.length < frame.depth)
    (rest : ∀ next, Represents frame cells (bytes ++ [cpu.a]) next → next.a = cpu.a →
      next.x = cpu.x → frame.wiring.Runs lines next post) :
    frame.wiring.Runs (.op .pha :: lines) cpu post := by
  refine .cons rfl ?_
  exact rest _ (represents.push sound room cpu.a) rfl rfl

theorem runs_loads (sound : frame.ClearOfTemporary) {size : Nat} {load : Nat → Instruction}
    {byte : Nat → UInt8} {x : UInt8}
    (loads : ∀ k < size, ∀ bytes cpu, Represents frame cells bytes cpu → cpu.x = x →
      frame.wiring.execute? (load k) cpu = some (cpu.loadA (byte k)))
    (represents : Represents frame cells bytes cpu) (index : cpu.x = x)
    (room : bytes.length + size ≤ frame.depth) :
    frame.wiring.Runs ((List.range size).flatMap fun k => [.instruction (load k), .op .pha]) cpu
      fun after =>
        Represents frame cells (bytes ++ (List.range size).map byte) after ∧ after.x = x := by
  induction size with
  | zero => exact .nil ⟨by simpa using represents, index⟩
  | succ size ih =>
    rw [List.range_succ, List.flatMap_append, List.flatMap_singleton, List.map_append,
      List.map_singleton, ← List.append_assoc]
    have first := ih (fun k below => loads k (Nat.lt_succ_of_lt below)) (Nat.le_of_succ_le room)
    refine first.append ?_
    rintro next ⟨held, same⟩
    refine .cons (loads size (Nat.lt_succ_self _) _ next held same) ?_
    refine runs_push sound (held.silent rfl rfl rfl) ?_ ?_
    · rw [List.length_append, List.length_map, List.length_range]
      exact room
    · intro after pushed _ kept
      exact .nil ⟨pushed, kept.trans same⟩

/-- Pulls bytes and stores them one after the other, the last one first. -/
theorem runs_stores {size : Nat} {store : Nat → Instruction} {span : Nat → UInt16} {x : UInt8}
    (stores : ∀ k < size, ∀ cpu : Cpu, cpu.x = x → frame.wiring.execute? (store k) cpu =
      some { cpu with cells := frame.wiring.write cpu.cells (span k) cpu.a })
    (free : ∀ k < size, ¬frame.Reserved (frame.wiring.cell (span k))) {value : List UInt8}
    (sized : value.length = size) (represents : Represents frame cells (bytes ++ value) cpu)
    (index : cpu.x = x) :
    frame.wiring.Runs
      ((List.range size).reverse.flatMap fun k => [.op .pla, .instruction (store k)]) cpu
      (Represents frame (frame.wiring.writeAll cells ((List.range size).map span) value)
        bytes) := by
  induction size generalizing cells cpu value with
  | zero =>
    obtain rfl := List.eq_nil_of_length_eq_zero sized
    exact .nil (by simpa [Wiring.writeAll] using represents)
  | succ size ih =>
    rcases List.eq_nil_or_concat value with rfl | ⟨front, last, rfl⟩
    · contradiction
    rw [List.concat_eq_append] at sized represents ⊢
    have shorter : front.length = size := by simpa using sized
    rw [List.range_succ, List.reverse_append, List.reverse_singleton, List.singleton_append,
      List.flatMap_cons, List.map_append, List.map_singleton,
      writeAll_concat (by simpa using shorter)]
    rw [← List.append_assoc] at represents
    refine runs_pull represents ?_
    intro next held pulled
    refine .cons (stores size (Nat.lt_succ_self _) next (pulled.x.trans index)) ?_
    rw [← pulled.a]
    exact ih (fun k below => stores k (Nat.lt_succ_of_lt below))
      (fun k below => free k (Nat.lt_succ_of_lt below)) shorter
      (held.write (free size (Nat.lt_succ_self _)) next.a) (pulled.x.trans index)

/-- The distance of a byte from the symbol is taken in eight bits. -/
theorem value_byteOf_narrowed (wiring : Wiring) (symbol : Symbol) {k size : Nat}
    (inside : k < size) :
    wiring.value (Value.byteOf symbol k size) =
      wiring.address symbol + UInt16.ofNat (k % 256) := by
  unfold Value.byteOf
  split
  next first =>
    have zero : k = 0 := by omega
    simp [zero, Wiring.value]
  next =>
    have byte : (UInt8.ofNat k).toUInt16 = UInt16.ofNat (k % 256) := by
      apply UInt16.toNat_inj.mp
      rw [UInt8.toNat_toUInt16, UInt8.toNat_ofNat', UInt16.toNat_ofNat']
      omega
    rw [Wiring.value, byte]

theorem value_byteOf (wiring : Wiring) (symbol : Symbol) {k size : Nat} (inside : k < size)
    (small : size ≤ 256) :
    wiring.value (Value.byteOf symbol k size) = wiring.address symbol + UInt16.ofNat k := by
  rw [value_byteOf_narrowed wiring symbol inside,
    Nat.mod_eq_of_lt (Nat.lt_of_lt_of_le inside small)]

theorem indexed_byte (wiring : Wiring) (base index : UInt8) :
    wiring.indexed (.byte base) index = (base + index).toUInt16 := by
  have small : base.toUInt16 < 0x100 := by
    rw [UInt16.lt_iff_toNat_lt, UInt8.toNat_toUInt16]
    exact base.toNat_lt
  simp [Wiring.indexed, Wiring.value, small]

theorem indexed_pointer (wiring : Wiring) (pointer : UInt8) (offset : Nat) :
    wiring.indexed (indexedByte offset) pointer = (pointer + UInt8.ofNat offset).toUInt16 := by
  rw [UInt8.add_comm]
  exact indexed_byte _ _ _

theorem runs_loadLines (sound : frame.ClearOfTemporary)
    (represents : Represents frame cells bytes cpu) {symbol : Symbol} {size : Nat}
    (small : size ≤ 256)
    (free : ∀ address ∈ slotSpan (frame.wiring.address symbol) size,
      ¬frame.Reserved (frame.wiring.cell address))
    (room : bytes.length + size ≤ frame.depth) :
    frame.wiring.Runs (loadLines symbol size) cpu (Represents frame cells
      (bytes ++ frame.wiring.readAll cells (slotSpan (frame.wiring.address symbol) size))) := by
  have span : frame.wiring.readAll cells (slotSpan (frame.wiring.address symbol) size) =
      (List.range size).map fun k =>
        frame.wiring.read cells (frame.wiring.address symbol + UInt16.ofNat k) :=
    List.map_map
  rw [span]
  refine (runs_loads sound ?_ represents rfl room).mono fun after held => held.1
  intro k inside bytes cpu held _
  have outside := free _ (List.mem_map.mpr ⟨k, List.mem_range.mpr inside, rfl⟩)
  have address := value_byteOf frame.wiring symbol inside small
  rw [← held.read outside]
  exact execute?_takes (congrArg some address) rfl

theorem runs_storeLines {value : List UInt8}
    (represents : Represents frame cells (bytes ++ value) cpu) {symbol : Symbol} {size : Nat}
    (small : size ≤ 256) (sized : value.length = size)
    (free : ∀ address ∈ slotSpan (frame.wiring.address symbol) size,
      ¬frame.Reserved (frame.wiring.cell address)) :
    frame.wiring.Runs (storeLines symbol size) cpu
      (Represents frame
        (frame.wiring.writeAll cells (slotSpan (frame.wiring.address symbol) size) value)
        bytes) := by
  refine runs_stores ?_ ?_ sized represents rfl
  · intro k inside cpu _
    have address := value_byteOf frame.wiring symbol inside small
    exact execute?_stores (congrArg some address) rfl
  · intro k inside
    exact free _ (List.mem_map.mpr ⟨k, List.mem_range.mpr inside, rfl⟩)

theorem runs_immediate (sound : frame.ClearOfTemporary)
    (represents : Represents frame cells bytes cpu) (room : bytes.length < frame.depth)
    (value : Value) :
    frame.wiring.Runs [.on .lda .immediate value, .op .pha] cpu
      (Represents frame cells (bytes ++ [(frame.wiring.value value).toUInt8])) := by
  refine .cons rfl ?_
  have loaded : Represents frame cells bytes (cpu.loadA (frame.wiring.value value).toUInt8) :=
    represents.silent rfl rfl rfl
  exact runs_push sound loaded room fun next pushed _ _ => .nil pushed

theorem runs_loadField (sound : frame.ClearOfTemporary) {pointer : UInt8}
    (represents : Represents frame cells (bytes ++ [pointer]) cpu) {offset size : Nat}
    (free : ∀ address ∈ pageSpan pointer offset size, ¬frame.Reserved (frame.wiring.cell address))
    (room : bytes.length + size ≤ frame.depth) :
    frame.wiring.Runs
      ([.op .pla, .op .tax] ++ (List.range size).flatMap fun k =>
        [Line.on .lda .indexedX (indexedByte (offset + k)), .op .pha])
      cpu
      (Represents frame cells
        (bytes ++ frame.wiring.readAll cells (pageSpan pointer offset size))) := by
  have span : frame.wiring.readAll cells (pageSpan pointer offset size) =
      (List.range size).map fun k =>
        frame.wiring.read cells (pointer + UInt8.ofNat (offset + k)).toUInt16 :=
    List.map_map
  rw [span]
  refine runs_pull represents fun next held pulled => .cons rfl ?_
  have moved : Represents frame cells bytes (next.loadX next.a) := held.silent rfl rfl rfl
  refine (runs_loads sound ?_ moved pulled.a room).mono fun after held => held.1
  intro k inside bytes cpu held index
  have outside := free _ (List.mem_map.mpr ⟨k, List.mem_range.mpr inside, rfl⟩)
  have address : frame.wiring.indexed (indexedByte (offset + k)) cpu.x =
      (pointer + UInt8.ofNat (offset + k)).toUInt16 := by
    rw [index, indexed_pointer]
  rw [← held.read outside]
  exact execute?_takes (congrArg some address) rfl

theorem addBinary_clear (first second : UInt8) :
    (addBinary first second false).1 = first + second := by
  simp [addBinary, UInt8.ofNat_add]

theorem runs_fieldAddress (sound : frame.ClearOfTemporary) {pointer : UInt8}
    (represents : Represents frame cells (bytes ++ [pointer]) cpu) (offset : Nat) :
    frame.wiring.Runs
      ([.op .pla] ++ (if offset = 0 then []
        else [.op .clc, .immediate .adc (UInt8.ofNat offset)]) ++ [.op .pha])
      cpu (Represents frame cells (bytes ++ [pointer + UInt8.ofNat offset])) := by
  have room := represents.room_below
  refine runs_pull represents fun next held pulled => ?_
  split
  next zero =>
    subst zero
    refine runs_push sound held room fun after pushed _ _ => .nil ?_
    simpa [pulled.a] using pushed
  next =>
    refine .cons rfl (.cons rfl ?_)
    refine runs_push sound (held.silent rfl rfl rfl) room fun after pushed _ _ => .nil ?_
    have sum : ({ next with flags := { next.flags with carry := false } }.add
        (UInt8.ofNat offset).toUInt16.toUInt8).a = pointer + UInt8.ofNat offset := by
      simp [Cpu.add, Cpu.sum, held.binary, addBinary_clear, pulled.a]
    rw [← sum]
    exact pushed

theorem runs_storeField_byte {pointer byte : UInt8} {offset : Nat}
    (represents : Represents frame cells (bytes ++ [pointer] ++ [byte]) cpu)
    (free : ∀ address ∈ pageSpan pointer offset 1, ¬frame.Reserved (frame.wiring.cell address)) :
    frame.wiring.Runs
      [.op .pla, .op .tax, .op .pla, .op .tay, .on .stx .indexedY (indexedByte offset)] cpu
      (Represents frame
        (frame.wiring.writeAll cells (pageSpan pointer offset 1) [byte]) bytes) := by
  refine runs_pull represents fun next held pulled => .cons rfl ?_
  have moved : Represents frame cells (bytes ++ [pointer]) (next.loadX next.a) :=
    held.silent rfl rfl rfl
  refine runs_pull moved fun last heldLast pulledLast => .cons rfl ?_
  have ready : Represents frame cells bytes (last.loadY last.a) := heldLast.silent rfl rfl rfl
  have address : frame.wiring.indexed (indexedByte offset) (last.loadY last.a).y =
      (pointer + UInt8.ofNat (offset + 0)).toUInt16 := by
    rw [← pulledLast.a]
    exact indexed_pointer _ _ _
  have stored : (last.loadY last.a).stored? .stx = some byte :=
    congrArg some (pulledLast.x.trans pulled.a)
  exact .cons (execute?_stores (congrArg some address) stored)
    (.nil (ready.write (free _ List.mem_cons_self) byte))

theorem runs_storePage {value : List UInt8} {pointer : UInt8} {offset : Nat}
    (represents : Represents frame cells (bytes ++ value) cpu) (index : cpu.x = pointer)
    (free : ∀ address ∈ pageSpan pointer offset value.length,
      ¬frame.Reserved (frame.wiring.cell address)) :
    frame.wiring.Runs
      ((List.range value.length).reverse.flatMap fun k =>
        [Line.op .pla, .on .sta .indexedX (indexedByte (offset + k))])
      cpu
      (Represents frame
        (frame.wiring.writeAll cells (pageSpan pointer offset value.length) value) bytes) := by
  refine runs_stores ?_ ?_ rfl represents index
  · intro k inside next index
    have target : frame.wiring.indexed (indexedByte (offset + k)) next.x =
        (pointer + UInt8.ofNat (offset + k)).toUInt16 := by
      rw [index, indexed_pointer]
    exact execute?_stores (congrArg some target) rfl
  · intro k inside
    exact free _ (List.mem_map.mpr ⟨k, List.mem_range.mpr inside, rfl⟩)

/-- A value of several bytes is stored through the pointer below it on the hardware stack. -/
theorem runs_storeField_wide (sound : frame.ClearOfTemporary) {pointer : UInt8} {value : List UInt8}
    {offset : Nat} (represents : Represents frame cells (bytes ++ [pointer] ++ value) cpu)
    (free : ∀ address ∈ pageSpan pointer offset value.length,
      ¬frame.Reserved (frame.wiring.cell address)) :
    frame.wiring.Runs
      ([.op .tsx, .on .ldy .indexedX (.byte (UInt8.ofNat (value.length + 1))), .op .tya,
          .op .tax] ++
        ((List.range value.length).reverse.flatMap fun k =>
          [Line.op .pla, .on .sta .indexedX (indexedByte (offset + k))]) ++ [.op .pla])
      cpu
      (Represents frame
        (frame.wiring.writeAll cells (pageSpan pointer offset value.length) value) bytes) := by
  -- The pointer lies right below the value, at a known distance from the top of the stack.
  have below : (bytes ++ [pointer] ++ value)[bytes.length]? = some pointer := by simp
  have found := represents.peek sound below
  have distance : (bytes ++ [pointer] ++ value).length - bytes.length = value.length + 1 := by
    simp only [List.length_append, List.length_singleton]
    omega
  rw [distance] at found
  have address : frame.wiring.indexed (.byte (UInt8.ofNat (value.length + 1))) cpu.s =
      (UInt8.ofNat (value.length + 1) + cpu.s).toUInt16 :=
    indexed_byte _ _ _
  have taken : (cpu.loadX cpu.s).take? (frame.wiring.read cpu.cells
      (UInt8.ofNat (value.length + 1) + cpu.s).toUInt16) .ldy =
        some ((cpu.loadX cpu.s).loadY pointer) := by
    rw [found]
    rfl
  have loaded : frame.wiring.execute?
      ⟨.ldy, .addressed .indexedX (.byte (UInt8.ofNat (value.length + 1)))⟩ (cpu.loadX cpu.s) =
        some ((cpu.loadX cpu.s).loadY pointer) :=
    execute?_takes (congrArg some address) taken
  have ready : frame.wiring.Runs
      [.op .tsx, .on .ldy .indexedX (.byte (UInt8.ofNat (value.length + 1))), .op .tya, .op .tax]
      cpu fun next =>
        Represents frame cells (bytes ++ [pointer] ++ value) next ∧ next.x = pointer :=
    .cons rfl (.cons loaded (.cons rfl (.cons rfl (.nil ⟨represents.silent rfl rfl rfl, rfl⟩))))
  rw [List.append_assoc]
  refine ready.append fun next ⟨held, index⟩ => ?_
  refine (runs_storePage held index free).append fun last stored => ?_
  exact runs_pull stored fun after kept _ => .nil kept

theorem runs_clears {size : Nat} {span : Nat → UInt16} {x : UInt8}
    (stores : ∀ k < size, ∀ cpu : Cpu, cpu.x = x →
      frame.wiring.effective? cpu (.addressed .indexedX (indexedByte k)) = some (span k))
    (free : ∀ k < size, ¬frame.Reserved (frame.wiring.cell (span k)))
    (represents : Represents frame cells bytes cpu) (index : cpu.x = x) (zero : cpu.a = 0) :
    frame.wiring.Runs ((List.range size).map fun k => .on .sta .indexedX (indexedByte k)) cpu
      fun after =>
        Represents frame (frame.wiring.clear cells ((List.range size).map span)) bytes after ∧
          after.x = x ∧ after.a = 0 := by
  induction size with
  | zero => exact .nil ⟨represents, index, zero⟩
  | succ size ih =>
    rw [List.range_succ, List.map_append, List.map_append, List.map_singleton, List.map_singleton,
      Wiring.clear, List.foldl_append]
    have first := ih (fun k below => stores k (Nat.lt_succ_of_lt below))
      (fun k below => free k (Nat.lt_succ_of_lt below))
    refine first.append ?_
    rintro next ⟨held, sameIndex, sameZero⟩
    have address := stores size (Nat.lt_succ_self _) next sameIndex
    refine .cons (execute?_stores address (congrArg some sameZero)) (.nil ?_)
    exact ⟨held.write (free size (Nat.lt_succ_self _)) 0, sameIndex, sameZero⟩

theorem runs_initObject {pointer : UInt8} {size : Nat}
    (represents : Represents frame cells (bytes ++ [pointer]) cpu)
    (free : ∀ address ∈ pageSpan pointer 0 size, ¬frame.Reserved (frame.wiring.cell address)) :
    frame.wiring.Runs
      ([.op .pla, .op .tax, .immediate .lda 0] ++
        (List.range size).map fun k => Line.on .sta .indexedX (indexedByte k))
      cpu
      (Represents frame (frame.wiring.clear cells (pageSpan pointer 0 size)) bytes) := by
  refine runs_pull represents fun next held pulled => .cons rfl (.cons rfl ?_)
  have ready : Represents frame cells bytes ((next.loadX next.a).loadA 0) :=
    held.silent rfl rfl rfl
  refine (runs_clears ?_ ?_ ready pulled.a rfl).mono fun after held => held.1
  · intro k inside cpu index
    have address : frame.wiring.indexed (indexedByte k) cpu.x =
        (pointer + UInt8.ofNat (0 + k)).toUInt16 := by
      rw [index, indexed_pointer, Nat.zero_add]
    exact congrArg some address
  · intro k inside
    exact free _ (List.mem_map.mpr ⟨k, List.mem_range.mpr inside, rfl⟩)

theorem runs_duplicate (sound : frame.ClearOfTemporary) {byte : UInt8}
    (represents : Represents frame cells (bytes ++ [byte]) cpu)
    (room : bytes.length + 2 ≤ frame.depth) :
    frame.wiring.Runs [.op .pla, .op .pha, .op .pha] cpu
      (Represents frame cells (bytes ++ [byte] ++ [byte])) := by
  refine runs_pull represents fun next held pulled => ?_
  refine runs_push sound held (by omega) fun once heldOnce same _ => ?_
  have more : (bytes ++ [next.a]).length < frame.depth := by
    simp only [List.length_append, List.length_singleton]
    omega
  refine runs_push sound heldOnce more fun twice heldTwice _ _ => .nil ?_
  rwa [same, pulled.a] at heldTwice

theorem runs_discard {value : List UInt8}
    (represents : Represents frame cells (bytes ++ value) cpu) :
    frame.wiring.Runs (List.replicate value.length (.op .pla)) cpu
      (Represents frame cells bytes) := by
  induction value using List.reverseRecOn generalizing cpu with
  | nil => exact .nil (by simpa using represents)
  | append_singleton front last ih =>
    rw [List.length_append, List.length_singleton, List.replicate_succ]
    rw [← List.append_assoc] at represents
    exact runs_pull represents fun next held _ => ih held

end Pieces

end Cartridge.Machine
