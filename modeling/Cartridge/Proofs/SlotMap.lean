import Cartridge.Proofs.FilledTable
import Cartridge.Proofs.SlotSizes

/-!
The answers of a map of memory.

Every variable of a program gets one allocation: the static fields, and the parameters and locals of
the subroutines that are compiled. Requests are made for slots that are all different, so that no
later entry of the index hides an earlier one. So the index leads each slot to the position of its
own request, and the map answers for these slots and for nothing else.
-/

namespace Cartridge.Program

theorem TypeTable.WellFormed.nodup_fieldIds {types : TypeTable} (wellFormed : types.WellFormed) :
    ((types.types.flatMap (·.fields)).map (·.id)).Nodup := by
  apply nodup_keys_of_places fun id : FieldId => (id.owner, id.index)
  intro owner type index field foundType found
  have placed : types.field? ⟨owner, index⟩ = some field :=
    field?_eq_some.mpr ⟨type, foundType, found⟩
  rw [wellFormed.fieldId _ field placed]

end Cartridge.Program

namespace Cartridge.Memory

open Program (CallGraph Subroutine TypeTable)

/-- What a program keeps in memory, with the name of its symbol and its size. -/
inductive Variable (types : TypeTable) (graph : CallGraph) : Slot → Asm.Symbol → Nat → Prop
  | field {id type field} (declared : types.get? id.owner = some type)
    (member : type.fields[id.index]? = some field) (static : field.isStatic = true) :
    Variable types graph (.field id) (Asm.mangle (type.name ++ "_" ++ field.name)) field.type.size
  | argument {id subroutine type} {n : UInt16} (found : types.subroutine? id = some subroutine)
    (reached : graph.contains id = true) (kept : subroutine.replacesCall = false)
    (parameter : subroutine.parameters[n.toNat]? = some type) :
    Variable types graph (.argument id n) (subroutine.label ++ "_P" ++ Text.decimal n.toNat)
      type.size
  | local {id subroutine type} {n : UInt16} (found : types.subroutine? id = some subroutine)
    (reached : graph.contains id = true) (kept : subroutine.replacesCall = false)
    (declared : subroutine.locals[n.toNat]? = some type) :
    Variable types graph (.local id n) (subroutine.label ++ "_L" ++ Text.decimal n.toNat) type.size

/-- The subroutine that a slot belongs to. -/
def Slot.owner? : Slot → Option SubroutineId
  | .argument id _ => some id
  | .local id _ => some id
  | _ => none

def variableRequests (types : TypeTable) (graph : CallGraph) : List Request :=
  fieldRequests types ++ (types.subroutines.filter (hasSlots graph)).flatMap subroutineRequests

theorem requests_eq (types : TypeTable) (graph : CallGraph) :
    requests types graph = temporaryRequests ++ variableRequests types graph :=
  List.append_assoc _ _ _

section Distinct

variable {types : TypeTable} {graph : CallGraph}

theorem slots_fieldRequests (types : TypeTable) :
    (fieldRequests types).map Request.slot? =
      (((types.types.flatMap (·.fields)).filter (·.isStatic)).map (·.id)).map
        fun id => some (.field id) := by
  rw [fieldRequests, List.map_flatMap, List.filter_flatMap, List.map_flatMap, List.map_flatMap]
  simp only [List.map_map]
  rfl

/-- Slots of not too many entries are numbered without repetition. -/
theorem nodup_numbered {entries : List ValueType} (few : entries.length ≤ 0x10000)
    {slot : UInt16 → Option Slot} (apart : Function.Injective slot) :
    (entries.zipIdx.map fun entry => slot (UInt16.ofNat entry.2)).Nodup := by
  have numbers : (entries.zipIdx.map fun entry => slot (UInt16.ofNat entry.2)) =
      (List.range entries.length).map fun n => slot (UInt16.ofNat n) := by
    rw [List.range_eq_range', ← List.zipIdx_map_snd 0 entries, List.map_map]
    rfl
  rw [numbers]
  apply List.Nodup.map_on _ List.nodup_range
  intro first inside second insideToo same
  exact eq_of_ofNat_eq few (List.mem_range.mp inside) (List.mem_range.mp insideToo) (apart same)

theorem owner?_of_mem_subroutineRequests {subroutine : Subroutine} {slot : Option Slot}
    (member : slot ∈ (subroutineRequests subroutine).map Request.slot?) :
    slot.bind Slot.owner? = some subroutine.id := by
  rw [subroutineRequests, List.map_append, List.map_map, List.map_map] at member
  rcases List.mem_append.mp member with argument | other
  · obtain ⟨entry, -, rfl⟩ := List.mem_map.mp argument
    rfl
  · obtain ⟨entry, -, rfl⟩ := List.mem_map.mp other
    rfl

theorem nodup_subroutineRequests {subroutine : Subroutine}
    (few : subroutine.parameters.length ≤ 0x10000 ∧ subroutine.locals.length ≤ 0x10000) :
    ((subroutineRequests subroutine).map Request.slot?).Nodup := by
  rw [subroutineRequests, List.map_append, List.map_map, List.map_map]
  refine List.nodup_append.mpr ⟨?_, ?_, ?_⟩
  · exact nodup_numbered few.1 fun _ _ same => (Slot.argument.inj (Option.some.inj same)).2
  · exact nodup_numbered few.2 fun _ _ same => (Slot.local.inj (Option.some.inj same)).2
  · intro slot argument other declared same
    obtain ⟨first, -, rfl⟩ := List.mem_map.mp argument
    obtain ⟨second, -, rfl⟩ := List.mem_map.mp declared
    cases Option.some.inj same

theorem nodup_fieldRequests (wellFormed : types.WellFormed) :
    ((fieldRequests types).map Request.slot?).Nodup := by
  rw [slots_fieldRequests]
  apply List.Nodup.map fun _ _ same => Slot.field.inj (Option.some.inj same)
  exact wellFormed.nodup_fieldIds.sublist (List.filter_sublist.map _)

theorem nodup_flatMap_subroutineRequests {subroutines : List Subroutine}
    (distinct : (subroutines.map (·.id)).Nodup)
    (few : ∀ subroutine ∈ subroutines,
      subroutine.parameters.length ≤ 0x10000 ∧ subroutine.locals.length ≤ 0x10000) :
    ((subroutines.flatMap subroutineRequests).map Request.slot?).Nodup := by
  rw [List.map_flatMap, List.nodup_flatMap]
  constructor
  · intro subroutine member
    exact nodup_subroutineRequests (few subroutine member)
  · apply (List.pairwise_map.mp distinct).imp
    intro first second differ slot inFirst inSecond
    apply differ
    apply Option.some.inj
    rw [← owner?_of_mem_subroutineRequests inFirst, owner?_of_mem_subroutineRequests inSecond]

/-- No slot is requested twice. -/
theorem nodup_slots (wellFormed : types.WellFormed) (few : types.FewSlots) (graph : CallGraph) :
    ((variableRequests types graph).map Request.slot?).Nodup := by
  have subroutines := nodup_flatMap_subroutineRequests
    (wellFormed.nodup_ids.sublist (List.filter_sublist (p := hasSlots graph).map (·.id)))
    fun subroutine member => few subroutine (List.mem_filter.mp member).1
  rw [variableRequests, List.map_append]
  refine List.nodup_append.mpr ⟨nodup_fieldRequests wellFormed, subroutines, ?_⟩
  intro slot field other slotted same
  rw [slots_fieldRequests] at field
  obtain ⟨id, -, rfl⟩ := List.mem_map.mp field
  rw [List.map_flatMap, ← same] at slotted
  obtain ⟨subroutine, -, inside⟩ := List.mem_flatMap.mp slotted
  have owned := owner?_of_mem_subroutineRequests inside
  contradiction

theorem slot?_isSome {request : Request} (asked : request ∈ variableRequests types graph) :
    request.slot?.isSome = true := by
  rcases List.mem_append.mp asked with field | slotted
  · obtain ⟨type, -, inType⟩ := List.mem_flatMap.mp field
    obtain ⟨_, -, rfl⟩ := List.mem_map.mp inType
    rfl
  · obtain ⟨subroutine, -, inside⟩ := List.mem_flatMap.mp slotted
    rcases List.mem_append.mp inside with argument | other
    · obtain ⟨_, -, rfl⟩ := List.mem_map.mp argument
      rfl
    · obtain ⟨_, -, rfl⟩ := List.mem_map.mp other
      rfl

/-- Behind the temporaries there are only requests with slots, and before there are none. -/
theorem getElem?_requests {position : Nat} {request : Request} {slot : Slot} :
    (requests types graph)[position]? = some request ∧ request.slot? = some slot ↔
      ∃ place, position = place + 2 ∧ (variableRequests types graph)[place]? = some request ∧
        request.slot? = some slot := by
  have few : temporaryRequests.length = 2 := rfl
  rw [requests_eq]
  constructor
  · rintro ⟨found, marked⟩
    rcases Nat.lt_or_ge position 2 with front | behind
    · rw [List.getElem?_append_left (by omega)] at found
      obtain ⟨n, -, rfl⟩ := List.mem_map.mp (List.mem_of_getElem? found)
      contradiction
    · rw [List.getElem?_append_right (by omega)] at found
      exact ⟨position - 2, by omega, found, marked⟩
  · rintro ⟨place, rfl, found, marked⟩
    rw [List.getElem?_append_right (by omega)]
    exact ⟨by rwa [few, Nat.add_sub_cancel], marked⟩

theorem toNat_of_getElem? {entries : List ValueType} (few : entries.length ≤ 0x10000) {n : Nat}
    {type : ValueType} (found : entries[n]? = some type) : (UInt16.ofNat n).toNat = n := by
  have below := (List.getElem?_eq_some_iff.mp found).1
  rw [UInt16.toNat_ofNat']
  omega

theorem variable_of_mem (wellFormed : types.WellFormed) (few : types.FewSlots) {request : Request}
    {slot : Slot} (asked : request ∈ variableRequests types graph)
    (marked : request.slot? = some slot) :
    Variable types graph slot request.symbol request.size := by
  have all : request ∈ requests types graph := by
    rw [requests_eq]
    exact List.mem_append_right _ asked
  have reached : ∀ {subroutine : Subroutine}, hasSlots graph subroutine = true →
      graph.contains subroutine.id = true ∧ subroutine.replacesCall = false := by
    intro subroutine compiled
    simpa [hasSlots, and_comm] using compiled
  cases requested_of_mem all with
  | temporary => contradiction
  | @field type field declared member static =>
    obtain ⟨owner, foundType⟩ := List.getElem?_of_mem declared
    obtain ⟨index, inside⟩ := List.getElem?_of_mem member
    have placed : field.id = ⟨owner, index⟩ :=
      wellFormed.fieldId _ field (Program.field?_eq_some.mpr ⟨type, foundType, inside⟩)
    obtain rfl := Option.some.inj marked
    apply Variable.field _ _ static
    · rwa [placed]
    · rwa [placed]
  | @argument subroutine n type member compiled found =>
    obtain ⟨contained, kept⟩ := reached compiled
    have number := toNat_of_getElem? (few subroutine member).1 found
    obtain rfl := Option.some.inj marked
    have made : Variable types graph (.argument subroutine.id (UInt16.ofNat n)) _ type.size :=
      .argument (wellFormed.subroutine?_id member) contained kept (by rwa [number])
    rwa [number] at made
  | @«local» subroutine n type member compiled found =>
    obtain ⟨contained, kept⟩ := reached compiled
    have number := toNat_of_getElem? (few subroutine member).2 found
    obtain rfl := Option.some.inj marked
    have made : Variable types graph (.local subroutine.id (UInt16.ofNat n)) _ type.size :=
      .local (wellFormed.subroutine?_id member) contained kept (by rwa [number])
    rwa [number] at made

theorem mem_of_variable (wellFormed : types.WellFormed) {slot : Slot} {symbol : Asm.Symbol}
    {size : Nat} (kept : Variable types graph slot symbol size) :
    { slot? := some slot, symbol, size } ∈ variableRequests types graph := by
  have compiled : ∀ {id subroutine request}, types.subroutine? id = some subroutine →
      graph.contains id = true → subroutine.replacesCall = false →
      request ∈ subroutineRequests subroutine → request ∈ variableRequests types graph := by
    intro id subroutine request found reached kept asked
    apply List.mem_append_right
    refine List.mem_flatMap.mpr ⟨subroutine, List.mem_filter.mpr ⟨?_, ?_⟩, asked⟩
    · exact Program.mem_subroutines.mpr ⟨id, found⟩
    · rw [hasSlots, kept, wellFormed.subroutineId id subroutine found, reached]
      rfl
  cases kept with
  | @field id type field declared member static =>
    have named := wellFormed.fieldId id field
      (Program.field?_eq_some.mpr ⟨type, declared, member⟩)
    apply List.mem_append_left
    refine List.mem_flatMap.mpr ⟨type, List.mem_of_getElem? declared, ?_⟩
    refine List.mem_map.mpr ⟨field, List.mem_filter.mpr ⟨List.mem_of_getElem? member, static⟩, ?_⟩
    rw [named]
  | @argument id subroutine type n found reached kept parameter =>
    apply compiled found reached kept
    apply List.mem_append_left
    refine List.mem_map.mpr ⟨(type, n.toNat), List.mk_mem_zipIdx_iff_getElem?.mpr parameter, ?_⟩
    simp only [wellFormed.subroutineId id subroutine found, UInt16.ofNat_toNat]
  | @«local» id subroutine type n found reached kept declared =>
    apply compiled found reached kept
    apply List.mem_append_right
    refine List.mem_map.mpr ⟨(type, n.toNat), List.mk_mem_zipIdx_iff_getElem?.mpr declared, ?_⟩
    simp only [wellFormed.subroutineId id subroutine found, UInt16.ofNat_toNat]

end Distinct

/-- An answer for a slot that is exactly right: an allocation of the size and the symbol that are
kept there, or none where nothing is. -/
def Answers (types : TypeTable) (graph : CallGraph) (slot : Slot) (answer? : Option Allocation) :
    Prop :=
  ∀ symbol size, Variable types graph slot symbol size ↔
    ∃ allocation, answer? = some allocation ∧ allocation.symbol = symbol ∧ allocation.size = size

namespace Map

/-- What a map tells of all that a program keeps, and how its index leads there. -/
structure Describes (types : TypeTable) (graph : CallGraph) (memory : Map) : Prop where
  fields : ∀ id, Answers types graph (.field id) (memory.field? id)
  arguments : ∀ id n, Answers types graph (.argument id n) (memory.argument? id n)
  locals : ∀ id n, Answers types graph (.local id n) (memory.local? id n)
  distinct : ∀ slot other position, memory.slots.lookup slot = some position →
    memory.slots.lookup other = some position → slot = other
  temporaries : (memory.allocations.take 2).map (fun allocation =>
    (allocation.symbol, allocation.size)) = [("TEMP0", 1), ("TEMP1", 1)]
  /-- The allocations behind the temporaries are those of variables, and no variable has a
  temporary. -/
  others : ∀ position, 2 ≤ position ∧ position < memory.allocations.length ↔
    ∃ slot symbol size, Variable types graph slot symbol size ∧
      memory.slots.lookup slot = some position

variable {types : TypeTable} {graph : CallGraph} {ram : Ram} {memory : Map}

section Allocated

variable (wellFormed : types.WellFormed) (few : types.FewSlots)
  (allocated : allocate types graph ram = .ok memory)
include wellFormed few allocated

/-- The index leads a slot to where its request was, and nowhere else. -/
theorem lookup_eq_some {slot : Slot} {position : Nat} :
    memory.slots.lookup slot = some position ↔
      ∃ request, (requests types graph)[position]? = some request ∧
        request.slot? = some slot := by
  have serves := serves_of_allocate allocated
  refine ⟨serves.request_of_lookup, ?_⟩
  rintro ⟨request, asked, marked⟩
  obtain ⟨other, entered⟩ := Option.isSome_iff_exists.mp
    (serves.lookup_isSome (List.mem_of_getElem? asked) marked)
  obtain ⟨again, askedToo, markedToo⟩ := serves.request_of_lookup entered
  obtain ⟨first, rfl, found, -⟩ := getElem?_requests.mp ⟨asked, marked⟩
  obtain ⟨second, rfl, foundToo, -⟩ := getElem?_requests.mp ⟨askedToo, markedToo⟩
  have inside := (List.getElem?_eq_some_iff.mp found).1
  have same : ((variableRequests types graph).map Request.slot?)[first]? =
      ((variableRequests types graph).map Request.slot?)[second]? := by
    rw [List.getElem?_map, List.getElem?_map, found, foundToo, Option.map_some, Option.map_some,
      marked, markedToo]
  rw [entered, (List.getElem?_inj (by simpa using inside) (nodup_slots wellFormed few graph)).mp
    same]

theorem variable_iff {slot : Slot} {symbol : Asm.Symbol} {size : Nat} :
    Variable types graph slot symbol size ↔
      ∃ position allocation, memory.slots.lookup slot = some position ∧
        memory.allocations[position]? = some allocation ∧ allocation.symbol = symbol ∧
        allocation.size = size := by
  have serves := serves_of_allocate allocated
  constructor
  · intro kept
    obtain ⟨place, found⟩ := List.getElem?_of_mem (mem_of_variable wellFormed kept)
    have asked := (getElem?_requests.mpr ⟨place, rfl, found, rfl⟩).1
    obtain ⟨allocation, placed, named, sized⟩ := serves.allocation_at asked
    exact ⟨place + 2, allocation,
      (lookup_eq_some wellFormed few allocated).mpr ⟨_, asked, rfl⟩, placed, named, sized⟩
  · rintro ⟨position, allocation, entered, placed, rfl, rfl⟩
    obtain ⟨request, asked, marked⟩ := serves.request_of_lookup entered
    obtain ⟨same, placedToo, named, sized⟩ := serves.allocation_at asked
    obtain rfl := Option.some.inj (placed.symm.trans placedToo)
    obtain ⟨place, -, found, -⟩ := getElem?_requests.mp ⟨asked, marked⟩
    rw [named, sized]
    exact variable_of_mem wellFormed few (List.mem_of_getElem? found) marked

theorem answers_of_allocate (slot : Slot) : Answers types graph slot (memory.find? slot) := by
  intro symbol size
  rw [variable_iff wellFormed few allocated]
  constructor
  · rintro ⟨position, allocation, entered, placed, parts⟩
    exact ⟨allocation, by simp [find?, entered, placed], parts⟩
  · rintro ⟨allocation, found, parts⟩
    obtain ⟨position, entered, placed⟩ := Option.bind_eq_some_iff.mp found
    exact ⟨position, allocation, entered, placed, parts⟩

theorem describes_of_allocate : memory.Describes types graph := by
  have serves := serves_of_allocate allocated
  have answers := answers_of_allocate wellFormed few allocated
  refine ⟨fun id => answers _, fun id n => answers _, fun id n => answers _, ?_, ?_, ?_⟩
  · intro slot other position found foundToo
    obtain ⟨request, asked, marked⟩ := serves.request_of_lookup found
    obtain ⟨same, askedToo, markedToo⟩ := serves.request_of_lookup foundToo
    obtain rfl := Option.some.inj (asked.symm.trans askedToo)
    exact Option.some.inj (marked.symm.trans markedToo)
  · rw [List.map_take, serves.made, requests_eq]
    rfl
  · intro position
    rw [serves.length, requests_eq, List.length_append]
    constructor
    · rintro ⟨behind, inside⟩
      have bound : position - 2 < (variableRequests types graph).length := by
        have few : temporaryRequests.length = 2 := rfl
        omega
      have found := List.getElem?_eq_getElem bound
      obtain ⟨slot, marked⟩ := Option.isSome_iff_exists.mp (slot?_isSome (List.getElem_mem bound))
      have asked := getElem?_requests.mpr ⟨position - 2, rfl, found, marked⟩
      rw [Nat.sub_add_cancel behind] at asked
      exact ⟨slot, _, _, variable_of_mem wellFormed few (List.getElem_mem bound) marked,
        (lookup_eq_some wellFormed few allocated).mpr ⟨_, asked⟩⟩
    · rintro ⟨slot, symbol, size, -, entered⟩
      obtain ⟨request, asked, marked⟩ := serves.request_of_lookup entered
      have inside := (List.getElem?_eq_some_iff.mp asked).1
      rw [requests_eq, List.length_append] at inside
      obtain ⟨place, rfl, -⟩ := getElem?_requests.mp ⟨asked, marked⟩
      exact ⟨by omega, inside⟩

end Allocated

/-- Whatever the RAM, a map that could be allocated for a resolved module answers exactly for the
static fields and for the parameters and locals of subroutines that are compiled. The index leads
each to an allocation of its own with its symbol and its size, and apart from the two temporaries in
front there are no others. -/
theorem allocate_exact {module : Source.Module} {program : Program} {graph : CallGraph} {ram : Ram}
    {memory : Map} (made : Program.ofModule module = .ok program)
    (few : program.types.FewSlots)
    (allocated : allocate program.types graph ram = .ok memory) :
    memory.Describes program.types graph :=
  describes_of_allocate (Program.ofModule_eq_ok made).1 few allocated

/-- The table and the replaced subroutines have no slots. -/
theorem allocate_exact_arcade :
    ∃ program graph memory, Program.ofModule arcade = .ok program ∧
      CallGraph.build program.types = .ok graph ∧
      allocate program.types graph {} = .ok memory ∧
      memory.allocations.map Allocation.symbol =
        ["TEMP0", "TEMP1", "Game_Score", "Game_Settle_P0"] ∧
      memory.Describes program.types graph := by
  have passed : (Program.ofModule arcade).toOption.any (fun program =>
      (CallGraph.build program.types).toOption.any fun graph =>
      (allocate program.types graph {}).toOption.any fun memory =>
      decide (memory.allocations.map Allocation.symbol =
        ["TEMP0", "TEMP1", "Game_Score", "Game_Settle_P0"]) &&
      program.types.subroutines.all fun subroutine =>
        subroutine.parameters.length ≤ 0x10000 ∧ subroutine.locals.length ≤ 0x10000) = true := by
    decide +kernel
  obtain ⟨program, made, more⟩ := exists_of_any passed
  obtain ⟨graph, built, more⟩ := exists_of_any more
  obtain ⟨memory, allocated, more⟩ := exists_of_any more
  simp only [Bool.and_eq_true, decide_eq_true_eq, List.all_eq_true] at more
  exact ⟨program, graph, memory, made, built, allocated, more.1,
    allocate_exact made more.2 allocated⟩

end Map

end Cartridge.Memory
