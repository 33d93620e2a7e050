import Cartridge.Proofs.Allocation
import Cartridge.Proofs.Compilation
import Cartridge.Proofs.FlowGraph
import Cartridge.Proofs.Pieces

/-!
Everything that code generation looks up is there.

A map of memory answers for every slot that an address was requested for, since its index is kept in
step with its allocations, and requests are made for every slot of every subroutine that is
compiled. When the turn of a subroutine comes, those that it calls
have had theirs.
-/

namespace Cartridge.Memory

open Emit (bind_eq_ok pure_eq_ok)
open Program (CallGraph Subroutine TypeTable)

/-- A map with an allocation for each of some requests, in their order, and an index that tells the
position of those with a slot. -/
structure Map.Serves (map : Map) (requests : List Request) : Prop where
  made : map.allocations.map (fun allocation => (allocation.symbol, allocation.size)) =
    requests.map fun request => (request.symbol, request.size)
  slots : map.slots = (requests.zipIdx.filterMap fun (request, position) =>
    request.slot?.map (·, position)).reverse

/-- The index is entered together with the allocation. -/
theorem Map.Serves.allocate {allocator next : Allocator} {requests : List Request}
    {request : Request} (serves : allocator.map.Serves requests)
    (made : allocator.allocate request = .ok next) : next.map.Serves (requests ++ [request]) := by
  obtain ⟨address, -, map⟩ := Allocator.allocate_eq_ok made
  have length : allocator.map.allocations.length = requests.length := by
    simpa using congrArg List.length serves.made
  rw [map]
  refine ⟨by simp [Map.add, serves.made], ?_⟩
  rw [List.zipIdx_append, List.filterMap_append, List.reverse_append, ← serves.slots]
  cases marked : request.slot? <;> simp [Map.add, marked, length]

theorem serves_of_foldlM {allocator done : Allocator} {before requests : List Request}
    (serves : allocator.map.Serves before)
    (folded : requests.foldlM Allocator.allocate allocator = .ok done) :
    done.map.Serves (before ++ requests) := by
  induction requests generalizing allocator before with
  | nil =>
    obtain rfl := pure_eq_ok.mp folded
    rwa [List.append_nil]
  | cons request requests ih =>
    rw [List.foldlM_cons] at folded
    obtain ⟨next, made, rest⟩ := bind_eq_ok.mp folded
    have whole := ih (serves.allocate made) rest
    rwa [List.append_assoc] at whole

variable {types : TypeTable} {graph : CallGraph} {ram : Ram} {memory : Map}

theorem serves_of_allocate (allocated : Map.allocate types graph ram = .ok memory) :
    memory.Serves (requests types graph) := by
  unfold Map.allocate at allocated
  split at allocated
  next => contradiction
  next =>
    obtain ⟨done, folded, made⟩ := bind_eq_ok.mp allocated
    obtain rfl := pure_eq_ok.mp made
    have empty : ({ ram } : Allocator).map.Serves [] := ⟨rfl, rfl⟩
    have whole := serves_of_foldlM empty folded
    rwa [List.nil_append] at whole

namespace Map.Serves

variable {requests : List Request} {slot : Slot} {position : Nat} {request : Request}
  {allocation : Allocation}

theorem length (serves : memory.Serves requests) :
    memory.allocations.length = requests.length := by
  simpa using congrArg List.length serves.made

theorem mem_slots (serves : memory.Serves requests) :
    (slot, position) ∈ memory.slots ↔
      ∃ request, requests[position]? = some request ∧ request.slot? = some slot := by
  rw [serves.slots, List.mem_reverse, List.mem_filterMap]
  constructor
  · rintro ⟨⟨request, place⟩, member, entered⟩
    obtain ⟨own, marked, same⟩ := Option.map_eq_some_iff.mp entered
    obtain ⟨rfl, rfl⟩ := Prod.mk.inj same
    exact ⟨request, List.mk_mem_zipIdx_iff_getElem?.mp member, marked⟩
  · rintro ⟨request, found, marked⟩
    exact ⟨(request, position), List.mk_mem_zipIdx_iff_getElem?.mpr found, by simp [marked]⟩

/-- A position in the index is that of a request for the slot. -/
theorem request_of_lookup (serves : memory.Serves requests)
    (found : memory.slots.lookup slot = some position) :
    ∃ request, requests[position]? = some request ∧ request.slot? = some slot := by
  obtain ⟨front, back, split, -⟩ := List.lookup_eq_some_iff.mp found
  apply serves.mem_slots.mp
  rw [split]
  exact List.mem_append_right _ List.mem_cons_self

theorem lookup_isSome (serves : memory.Serves requests) (asked : request ∈ requests)
    (marked : request.slot? = some slot) : (memory.slots.lookup slot).isSome = true := by
  obtain ⟨position, found⟩ := List.getElem?_of_mem asked
  have entered := serves.mem_slots.mpr ⟨request, found, marked⟩
  by_contra absent
  rw [Option.not_isSome_iff_eq_none, List.lookup_eq_none_iff] at absent
  simpa using absent _ entered

theorem allocation_at (serves : memory.Serves requests)
    (found : requests[position]? = some request) :
    ∃ allocation, memory.allocations[position]? = some allocation ∧
      allocation.symbol = request.symbol ∧ allocation.size = request.size := by
  have same := congrArg (·[position]?) serves.made
  simp only [List.getElem?_map, found, Option.map_some] at same
  obtain ⟨allocation, placed, parts⟩ := Option.map_eq_some_iff.mp same
  obtain ⟨named, sized⟩ := Prod.mk.inj parts
  exact ⟨allocation, placed, named, sized⟩

theorem of_find? (serves : memory.Serves requests) (found : memory.find? slot = some allocation) :
    ∃ (position : Nat) (request : Request), memory.allocations[position]? = some allocation ∧
      requests[position]? = some request ∧ request.slot? = some slot ∧
      allocation.symbol = request.symbol ∧ allocation.size = request.size := by
  obtain ⟨position, entered, placed⟩ := Option.bind_eq_some_iff.mp found
  obtain ⟨request, asked, marked⟩ := serves.request_of_lookup entered
  obtain ⟨same, placedToo, named, sized⟩ := serves.allocation_at asked
  obtain rfl := Option.some.inj (placed.symm.trans placedToo)
  exact ⟨position, request, placed, asked, marked, named, sized⟩

end Map.Serves

theorem find?_isSome (allocated : Map.allocate types graph ram = .ok memory) {request : Request}
    {slot : Slot} (requested : request ∈ requests types graph)
    (marked : request.slot? = some slot) : (memory.find? slot).isSome = true := by
  have serves := serves_of_allocate allocated
  obtain ⟨position, entered⟩ :=
    Option.isSome_iff_exists.mp (serves.lookup_isSome requested marked)
  obtain ⟨other, asked, -⟩ := serves.request_of_lookup entered
  obtain ⟨allocation, placed, -⟩ := serves.allocation_at asked
  simp [Map.find?, entered, placed]

/-- The temporaries are the first allocations, under the symbols by which code refers to them. -/
theorem symbol_temporary (allocated : Map.allocate types graph ram = .ok memory) {n : Nat}
    (few : n < 2) : ∃ allocation, memory.allocations[n]? = some allocation ∧
      allocation.symbol = temporary n := by
  have asked : (requests types graph)[n]? = some { symbol := temporary n, size := 1 } := by
    rw [requests, List.append_assoc, List.getElem?_append_left few]
    simp [temporaryRequests, few]
  obtain ⟨allocation, placed, named, -⟩ := (serves_of_allocate allocated).allocation_at asked
  exact ⟨allocation, placed, named⟩

theorem field?_isSome (allocated : Map.allocate types graph ram = .ok memory)
    (wellFormed : types.WellFormed) {id : FieldId} {field : Program.Field}
    (found : types.field? id = some field) (static : field.isStatic = true) :
    (memory.field? id).isSome = true := by
  obtain ⟨type, foundType, inside⟩ := Program.field?_eq_some.mp found
  have requested : { slot? := some (.field field.id)
                     symbol := Asm.mangle (type.name ++ "_" ++ field.name)
                     size := field.type.size } ∈ requests types graph := by
    refine List.mem_append_left _ (List.mem_append_right _ ?_)
    refine List.mem_flatMap.mpr ⟨type, List.mem_of_getElem? foundType, ?_⟩
    exact List.mem_map.mpr
      ⟨field, List.mem_filter.mpr ⟨List.mem_of_getElem? inside, static⟩, rfl⟩
  have present := find?_isSome allocated requested rfl
  rwa [wellFormed.fieldId id field found] at present

variable {id : SubroutineId} {subroutine : Subroutine}

theorem mem_requests_of_slot (wellFormed : types.WellFormed)
    (found : types.subroutine? id = some subroutine) (kept : subroutine.replacesCall = false)
    (contained : id ∈ graph.order) {request : Request}
    (slot : request ∈ subroutineRequests subroutine) : request ∈ requests types graph := by
  refine List.mem_append_right _ (List.mem_flatMap.mpr ⟨subroutine, ?_, slot⟩)
  refine List.mem_filter.mpr ⟨Program.mem_subroutines.mpr ⟨id, found⟩, ?_⟩
  rw [hasSlots, kept, wellFormed.subroutineId id subroutine found]
  simpa using CallGraph.contains_iff.mpr contained

theorem argument?_isSome (allocated : Map.allocate types graph ram = .ok memory)
    (wellFormed : types.WellFormed) (found : types.subroutine? id = some subroutine)
    (kept : subroutine.replacesCall = false) (contained : id ∈ graph.order) {n : Nat}
    (inside : n < subroutine.parameters.length) :
    (memory.argument? id (UInt16.ofNat n)).isSome = true := by
  have requested := mem_requests_of_slot wellFormed found kept contained
    (List.mem_append_left _ (List.mem_map.mpr
      ⟨(subroutine.parameters[n], n), List.mk_mem_zipIdx_iff_getElem?.mpr
        (List.getElem?_eq_getElem inside), rfl⟩))
  have present := find?_isSome allocated requested rfl
  rwa [wellFormed.subroutineId id subroutine found] at present

theorem local?_isSome (allocated : Map.allocate types graph ram = .ok memory)
    (wellFormed : types.WellFormed) (found : types.subroutine? id = some subroutine)
    (kept : subroutine.replacesCall = false) (contained : id ∈ graph.order) {n : Nat}
    (inside : n < subroutine.locals.length) :
    (memory.local? id (UInt16.ofNat n)).isSome = true := by
  have requested := mem_requests_of_slot wellFormed found kept contained
    (List.mem_append_right _ (List.mem_map.mpr
      ⟨(subroutine.locals[n], n), List.mk_mem_zipIdx_iff_getElem?.mpr
        (List.getElem?_eq_getElem inside), rfl⟩))
  have present := find?_isSome allocated requested rfl
  rwa [wellFormed.subroutineId id subroutine found] at present

end Cartridge.Memory

namespace Cartridge.Emit

open Program

/-- What the compilation of a body looks up is present. -/
structure Site.Supplied (site : Site) : Prop where
  sound : ∀ instruction ∈ site.subroutine.instructions,
    OperandFits site.types site.subroutine instruction
  parameters : ∀ slot : UInt16, slot.toNat < site.subroutine.parameters.length →
    (site.memory.argument? site.subroutine.id slot).isSome = true
  locals : ∀ slot : UInt16, slot.toNat < site.subroutine.locals.length →
    (site.memory.local? site.subroutine.id slot).isSome = true
  fields : ∀ id field, site.types.field? id = some field → field.isStatic = true →
    (site.memory.field? id).isSome = true
  callees : ∀ instruction ∈ site.subroutine.instructions, ∀ id callee,
    instruction.callee? = some id → site.types.subroutine? id = some callee →
    callee.replacesCall = false → callee.body?.isSome = true ∧
      ∀ n < callee.parameters.length,
        (site.memory.argument? callee.id (UInt16.ofNat n)).isSome = true
  blocks : ∀ index < site.subroutine.instructions.length,
    (site.subroutine.flowGraph.blockOf? index).isSome = true
  temporaries : ∀ n < 2, ∃ allocation, site.memory.allocations[n]? = some allocation ∧
    allocation.symbol = Memory.temporary n

theorem refers_withBodies {types : TypeTable} {bodies : Bodies} {subroutine : Subroutine}
    {operand : Code.Operand} (refers : Refers types subroutine operand) :
    Refers (types.withBodies bodies) subroutine operand := by
  cases operand with
  | field id => rwa [Refers, field?_withBodies]
  | method id => rwa [Refers, subroutine?_withBodies, Option.isSome_map]
  | _ => exact refers

/-- A subroutine is compiled where all it needs is at hand. -/
theorem supplied_of_compiles {types : TypeTable} {graph : CallGraph} {ram : Memory.Ram}
    {memory : Memory.Map} {library : Asm.Library} {optimize : Bool} {bodies : Bodies}
    {front rest : List SubroutineId} {id : SubroutineId} {subroutine : Subroutine}
    (wellFormed : types.WellFormed) (built : CallGraph.build types = .ok graph)
    (allocated : Memory.Map.allocate types graph ram = .ok memory)
    (split : graph.order = front ++ id :: rest)
    (ran : Compiles types memory library optimize front bodies)
    (found : types.subroutine? id = some subroutine) (walked : subroutine.walksBody = true) :
    Site.Supplied ⟨types.withBodies bodies, memory, subroutine⟩ := by
  have marked := CallGraph.walksBody_eq_true.mp walked
  have kept := replacesCall_of_walksBody walked
  have contained : id ∈ graph.order := by simp [split]
  have named := wellFormed.subroutineId id subroutine found
  refine ⟨?_, ?_, ?_, ?_, ?_, ?_, fun n few => Memory.symbol_temporary allocated few⟩
  · intro instruction member
    have checked := wellFormed.sound id subroutine found instruction member
    exact ⟨checked.kind, refers_withBodies checked.refers⟩
  · intro slot inside
    have present := Memory.argument?_isSome allocated wellFormed found kept contained inside
    rwa [UInt16.ofNat_toNat, ← named] at present
  · intro slot inside
    have present := Memory.local?_isSome allocated wellFormed found kept contained inside
    rwa [UInt16.ofNat_toNat, ← named] at present
  · intro other field present static
    simp only [field?_withBodies] at present
    exact Memory.field?_isSome allocated wellFormed present static
  · intro instruction member other callee called present calleeKept
    have calls : Calls types id other :=
      ⟨subroutine, found, marked, instruction, member, CallGraph.callee?_eq_some.mp called⟩
    have before := CallGraph.callee_before built split calls
    simp only [subroutine?_withBodies, Option.map_eq_some_iff] at present
    obtain ⟨source, foundSource, rfl⟩ := present
    have sourceNamed := wellFormed.subroutineId other source foundSource
    constructor
    · rw [Subroutine.body?_withBody, sourceNamed]
      exact ran.isSome before foundSource calleeKept
    · intro n inside
      rw [Subroutine.id_withBody, sourceNamed]
      exact Memory.argument?_isSome allocated wellFormed foundSource calleeKept
        (by simp [split, before]) inside
  · intro index inside
    have block := Code.FlowGraph.blockOf?_ofBody inside
    rw [Subroutine.flowGraph, block]
    rfl

end Cartridge.Emit
