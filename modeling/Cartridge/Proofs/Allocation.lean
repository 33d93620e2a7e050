import Cartridge.Memory.Map
import Mathlib.Data.List.Basic

/-!
Where allocations end up.

The two regions are filled from their starts without gaps, the zero page first. Every allocation is
described by what was placed before it: the bytes taken from either region so far fix its address
and tell whether it had to leave the zero page. All sums are of natural numbers, so that the
description also says that no address wraps around in sixteen bits.
-/

namespace Cartridge.Memory

open Program (CallGraph TypeTable)

inductive Bank where
  | zeroPage
  | extended
  deriving DecidableEq, Repr

def Ram.region (ram : Ram) : Bank → Region
  | .zeroPage => ram.zeroPage
  | .extended => ram.extended

def Region.Contains (region : Region) (address : Nat) : Prop :=
  region.start.toNat ≤ address ∧ address < region.stop.toNat

def Allocation.Occupies (allocation : Allocation) (address : Nat) : Prop :=
  allocation.address.toNat ≤ address ∧ address < allocation.address.toNat + allocation.size

/-- Regions that do not end before they start and have no address in common. -/
structure Ram.Separated (ram : Ram) : Prop where
  ordered : ∀ bank, (ram.region bank).start ≤ (ram.region bank).stop
  apart : ∀ address, ram.zeroPage.Contains address → ¬ram.extended.Contains address

def bytesIn (bank : Bank) : List (Bank × Allocation) → Nat
  | [] => 0
  | entry :: rest => (if entry.1 = bank then entry.2.size else 0) + bytesIn bank rest

/-- What is left of a RAM once some allocations were made: each bank starts behind the bytes that
were taken from it. -/
structure Left (ram : Ram) (before : List (Bank × Allocation)) (now : Ram) : Prop where
  stop : ∀ bank, (now.region bank).stop = (ram.region bank).stop
  start : ∀ bank, (now.region bank).start.toNat =
    (ram.region bank).start.toNat + bytesIn bank before
  ordered : ∀ bank, (now.region bank).start ≤ (now.region bank).stop

structure PlacedAt (ram : Ram) (before : List (Bank × Allocation)) (bank : Bank)
    (allocation : Allocation) : Prop where
  packed : allocation.address.toNat = (ram.region bank).start.toNat + bytesIn bank before
  inside : allocation.address.toNat + allocation.size ≤ (ram.region bank).stop.toNat
  /-- The extended bank is used only for what exceeds the rest of the zero page. -/
  spilled : bank = .extended →
    ram.zeroPage.stop.toNat - (ram.zeroPage.start.toNat + bytesIn .zeroPage before) <
      allocation.size
  /-- What is left of either bank is computed without a borrow. -/
  free : ∀ bank, ((ram.region bank).drop (bytesIn bank before)).free +
    ((ram.region bank).start.toNat + bytesIn bank before) = (ram.region bank).stop.toNat
  /-- The address behind the allocation is computed without a carry. -/
  behind : (allocation.address + UInt16.ofNat allocation.size).toNat =
    allocation.address.toNat + allocation.size

def Placed (ram : Ram) (before placed : List (Bank × Allocation)) : Prop :=
  ∀ front entry rest, placed = front ++ entry :: rest →
    PlacedAt ram (before ++ front) entry.1 entry.2

theorem bytesIn_append (bank : Bank) (front rest : List (Bank × Allocation)) :
    bytesIn bank (front ++ rest) = bytesIn bank front + bytesIn bank rest := by
  induction front with
  | nil => simp [bytesIn]
  | cons entry front ih => simp only [List.cons_append, bytesIn, ih]; omega

theorem Region.free_of_ordered {region : Region} (ordered : region.start ≤ region.stop) :
    region.free + region.start.toNat = region.stop.toNat := by
  have bounded : region.start.toNat ≤ region.stop.toNat := UInt16.le_iff_toNat_le.mp ordered
  have below := region.stop.toNat_lt
  rw [Region.free, UInt16.toNat_sub_of_le _ _ ordered]
  omega

theorem Region.drop_of_le_free {region : Region} {size : Nat}
    (ordered : region.start ≤ region.stop) (fits : size ≤ region.free) :
    (region.drop size).start.toNat = region.start.toNat + size ∧
      (region.drop size).start ≤ (region.drop size).stop := by
  have exact_free := region.free_of_ordered ordered
  have below := region.stop.toNat_lt
  have moved : (region.drop size).start.toNat = region.start.toNat + size := by
    simp only [Region.drop, UInt16.toNat_add, UInt16.toNat_ofNat']
    omega
  refine ⟨moved, UInt16.le_iff_toNat_le.mpr ?_⟩
  rw [moved]
  change region.start.toNat + size ≤ region.stop.toNat
  omega

theorem Left.initial {ram : Ram} (separated : ram.Separated) : Left ram [] ram :=
  ⟨fun _ => rfl, fun _ => rfl, separated.ordered⟩

theorem Left.region_eq {ram now : Ram} {before : List (Bank × Allocation)}
    (left : Left ram before now) (bank : Bank) :
    (ram.region bank).drop (bytesIn bank before) = now.region bank := by
  have start := left.start bank
  have below := (now.region bank).start.toNat_lt
  have moved : (ram.region bank).start + UInt16.ofNat (bytesIn bank before) =
      (now.region bank).start := by
    apply UInt16.toNat_inj.mp
    rw [UInt16.toNat_add, UInt16.toNat_ofNat']
    omega
  rw [Region.drop, moved, ← left.stop bank]

theorem Left.place {ram now after : Ram} {before : List (Bank × Allocation)} {bank : Bank}
    {allocation : Allocation} (left : Left ram before now)
    (address : allocation.address = (now.region bank).start)
    (fits : allocation.size ≤ (now.region bank).free)
    (spilled : bank = .extended → now.zeroPage.free < allocation.size)
    (changed : after.region bank = (now.region bank).drop allocation.size)
    (kept : ∀ other, other ≠ bank → after.region other = now.region other) :
    PlacedAt ram before bank allocation ∧ Left ram (before ++ [(bank, allocation)]) after := by
  have room := Region.free_of_ordered (left.ordered bank)
  have start := left.start bank
  have stop := left.stop bank
  obtain ⟨moved, ordered⟩ := Region.drop_of_le_free (left.ordered bank) fits
  refine ⟨⟨?_, ?_, ?_, ?_, ?_⟩, ⟨?_, ?_, ?_⟩⟩
  · rw [address, start]
  · rw [address, ← stop]
    omega
  · intro extended
    have zeroPage := Region.free_of_ordered (left.ordered .zeroPage)
    have exceeded := spilled extended
    rw [left.start, left.stop] at zeroPage
    simp only [Ram.region] at zeroPage
    omega
  · intro other
    rw [left.region_eq other, ← left.start other, ← left.stop other]
    exact Region.free_of_ordered (left.ordered other)
  · rw [address]
    exact moved
  · intro other
    by_cases same : other = bank
    · subst same
      rw [changed, Region.drop, stop]
    · rw [kept other same, left.stop]
  · intro other
    by_cases same : other = bank
    · subst same
      rw [changed, moved, start, bytesIn_append]
      simp [bytesIn, Nat.add_assoc]
    · rw [kept other same, left.start, bytesIn_append]
      simp [bytesIn, Ne.symm same]
  · intro other
    by_cases same : other = bank
    · subst same
      rw [changed]
      exact ordered
    · rw [kept other same]
      exact left.ordered other

/-- One allocation takes its bytes from the zero page, or from the extended region when they exceed
what the zero page has left. -/
theorem Left.take {ram now after : Ram} {before : List (Bank × Allocation)}
    {allocation : Allocation} (left : Left ram before now)
    (taken : now.take? allocation.size = some (allocation.address, after)) :
    ∃ bank, PlacedAt ram before bank allocation ∧
      Left ram (before ++ [(bank, allocation)]) after := by
  unfold Ram.take? at taken
  split at taken
  next fits =>
    obtain ⟨address, rfl⟩ := Prod.mk.inj (Option.some.inj taken)
    refine ⟨.zeroPage, left.place address.symm fits (by simp) rfl ?_⟩
    intro other different
    cases other with
    | zeroPage => contradiction
    | extended => rfl
  next exceeded =>
    split at taken
    next fits =>
      obtain ⟨address, rfl⟩ := Prod.mk.inj (Option.some.inj taken)
      refine ⟨.extended, left.place address.symm fits (fun _ => by omega) rfl ?_⟩
      intro other different
      cases other with
      | zeroPage => rfl
      | extended => contradiction
    next full => contradiction

theorem Placed.cons {ram : Ram} {before placed : List (Bank × Allocation)}
    {entry : Bank × Allocation} (first : PlacedAt ram before entry.1 entry.2)
    (others : Placed ram (before ++ [entry]) placed) : Placed ram before (entry :: placed) := by
  intro front next rest split
  cases front with
  | nil =>
    obtain ⟨rfl, rfl⟩ := List.cons.inj split
    simpa using first
  | cons head front =>
    obtain ⟨rfl, rfl⟩ := List.cons.inj split
    simpa using others front next rest rfl

theorem Allocator.allocate_eq_ok {allocator next : Allocator} {request : Request}
    (made : allocator.allocate request = .ok next) :
    ∃ address, allocator.ram.take? request.size = some (address, next.ram) ∧
      next.map = allocator.map.add request.slot?
        { symbol := request.symbol, address, size := request.size } := by
  unfold Allocator.allocate at made
  split at made
  next refused => contradiction
  next address ram taken =>
    obtain rfl := Except.ok.inj made
    exact ⟨address, taken, rfl⟩

theorem placed_of_foldlM {ram : Ram} {before : List (Bank × Allocation)}
    (requests : List Request) {allocator done : Allocator} (left : Left ram before allocator.ram)
    (folded : requests.foldlM Allocator.allocate allocator = .ok done) :
    ∃ placed, done.map.allocations = allocator.map.allocations ++ placed.map Prod.snd ∧
      Placed ram before placed := by
  induction requests generalizing allocator before with
  | nil =>
    obtain rfl := Except.ok.inj folded
    refine ⟨[], by simp, ?_⟩
    intro front entry rest split
    simp at split
  | cons request requests ih =>
    rw [List.foldlM_cons] at folded
    cases made : allocator.allocate request with
    | error fault => simp [made, bind, Except.bind] at folded
    | ok next =>
      simp only [made, bind, Except.bind] at folded
      obtain ⟨address, taken, map⟩ := Allocator.allocate_eq_ok made
      let allocation : Allocation := ⟨request.symbol, address, request.size⟩
      have granted : allocator.ram.take? allocation.size = some (allocation.address, next.ram) :=
        taken
      obtain ⟨bank, first, following⟩ := left.take granted
      obtain ⟨placed, listed, packed⟩ := ih following folded
      refine ⟨(bank, allocation) :: placed, ?_, packed.cons first⟩
      simp [listed, map, Map.add, allocation]

theorem PlacedAt.inside_region {ram : Ram} {before : List (Bank × Allocation)} {bank : Bank}
    {allocation : Allocation} (placed : PlacedAt ram before bank allocation) (address : Nat)
    (occupied : allocation.Occupies address) : (ram.region bank).Contains address := by
  obtain ⟨low, high⟩ := occupied
  have packed := placed.packed
  have inside := placed.inside
  exact ⟨by omega, by omega⟩

/-- Of two allocations in one bank, the later one starts behind the earlier one. -/
theorem PlacedAt.behind_earlier {ram : Ram} {front middle : List (Bank × Allocation)} {bank : Bank}
    {earlier later : Allocation} (first : PlacedAt ram front bank earlier)
    (second : PlacedAt ram (front ++ (bank, earlier) :: middle) bank later) :
    earlier.address.toNat + earlier.size ≤ later.address.toNat := by
  have start := first.packed
  have next := second.packed
  rw [bytesIn_append] at next
  simp only [bytesIn, if_true] at next
  omega

theorem Placed.head {ram : Ram} {before placed : List (Bank × Allocation)}
    {entry : Bank × Allocation} (packed : Placed ram before (entry :: placed)) :
    PlacedAt ram before entry.1 entry.2 := by
  simpa using packed [] entry placed rfl

theorem Placed.tail {ram : Ram} {before placed : List (Bank × Allocation)}
    {entry : Bank × Allocation} (packed : Placed ram before (entry :: placed)) :
    Placed ram (before ++ [entry]) placed := by
  intro front next rest split
  simpa using packed (entry :: front) next rest (by simp [split])

theorem Placed.disjoint {ram : Ram} {before placed : List (Bank × Allocation)}
    (separated : ram.Separated) (packed : Placed ram before placed) :
    placed.Pairwise fun first second =>
      ∀ address, first.2.Occupies address → ¬second.2.Occupies address := by
  induction placed generalizing before with
  | nil => exact .nil
  | cons entry placed ih =>
    refine List.pairwise_cons.mpr ⟨?_, ih packed.tail⟩
    intro other member address occupied shared
    obtain ⟨middle, rest, rfl⟩ := List.append_of_mem member
    have first := packed.head
    have second := packed (entry :: middle) other rest rfl
    obtain ⟨bank, earlier⟩ := entry
    obtain ⟨otherBank, later⟩ := other
    by_cases same : otherBank = bank
    · subst same
      have behind := first.behind_earlier second
      exact absurd (Nat.lt_of_lt_of_le occupied.2 behind) (Nat.not_lt.mpr shared.1)
    · -- Different banks share no address, whichever of the two comes first.
      have here := first.inside_region address occupied
      have there := second.inside_region address shared
      cases bank <;> cases otherBank <;>
        first
          | contradiction
          | exact separated.apart address here there
          | exact separated.apart address there here

/-- A successful allocation fills both regions from their starts, in the order of the requests and
without gaps. It leaves the zero page only for what does not fit there any more, never gives an
address away twice, and computes every address exactly. -/
theorem Map.allocate_packs {types : TypeTable} {graph : CallGraph} {ram : Ram} {map : Map}
    (separated : ram.Separated) (allocated : Map.allocate types graph ram = .ok map) :
    ∃ placed : List (Bank × Allocation),
      placed.map Prod.snd = map.allocations ∧
      (∀ front bank allocation rest, placed = front ++ (bank, allocation) :: rest →
        PlacedAt ram front bank allocation ∧
          ∀ address, allocation.Occupies address → (ram.region bank).Contains address) ∧
      map.allocations.Pairwise fun first second =>
        ∀ address, first.Occupies address → ¬second.Occupies address := by
  unfold Map.allocate at allocated
  split at allocated
  next outside => contradiction
  next within =>
    cases granted : (requests types graph).foldlM Allocator.allocate { ram } with
    | error fault => simp [granted, bind, Except.bind] at allocated
    | ok done =>
      simp only [granted, bind, Except.bind, pure, Except.pure, Except.ok.injEq] at allocated
      subst allocated
      obtain ⟨placed, made, packed⟩ :=
        placed_of_foldlM (requests types graph) (Left.initial separated) granted
      have listed : placed.map Prod.snd = done.map.allocations := by simp [made]
      refine ⟨placed, listed, ?_, ?_⟩
      · intro front bank allocation rest split
        have here := packed front (bank, allocation) rest split
        exact ⟨here, here.inside_region⟩
      · rw [← listed]
        exact List.pairwise_map.mpr (packed.disjoint separated)

/-- A wide field leaves a zero page of three bytes, a byte after it goes back there, and a field
without bytes is placed at the end of the full zero page. -/
theorem Map.allocate_packs_after_spill :
    let ram : Ram :=
      { zeroPage := { start := 0xFD, stop := 0x100 }
        extended := { start := 0x1000, stop := 0x1080 } }
    let types : TypeTable :=
      { types := [{ id := 0, name := "Game", value := .primitive .object, fields :=
          [{ id := ⟨0, 0⟩, name := "table", type := .pointer .byte false, offset? := none },
            { id := ⟨0, 1⟩, name := "score", type := .byte, offset? := none },
            { id := ⟨0, 2⟩, name := "unit", type := .primitive .void, offset? := none }] }] }
    ram.Separated ∧ ∃ map, Map.allocate types {} ram = .ok map ∧
      map.allocations.map (·.address) = [0xFD, 0xFE, 0x1000, 0xFF, 0x100] ∧
      ∃ placed : List (Bank × Allocation),
        placed.map Prod.snd = map.allocations ∧
        (∀ front bank allocation rest, placed = front ++ (bank, allocation) :: rest →
          PlacedAt ram front bank allocation ∧
            ∀ address, allocation.Occupies address → (ram.region bank).Contains address) ∧
        map.allocations.Pairwise fun first second =>
          ∀ address, first.Occupies address → ¬second.Occupies address := by
  intro ram types
  have separated : ram.Separated := by
    refine ⟨?_, ?_⟩
    · intro bank
      cases bank <;> decide
    · intro address low high
      have below : address < 0x100 := low.2
      have above : 0x1000 ≤ address := high.1
      omega
  have granted : ∃ map, Map.allocate types {} ram = .ok map ∧
      map.allocations.map (·.address) = [0xFD, 0xFE, 0x1000, 0xFF, 0x100] := by
    dsimp only [ram, types]
    exact ⟨_, rfl, by decide⟩
  obtain ⟨map, allocated, addresses⟩ := granted
  exact ⟨separated, map, allocated, addresses, Map.allocate_packs separated allocated⟩

end Cartridge.Memory
