import Cartridge.Proofs.Supply

/-!
What addresses are requested for, and how many bytes each slot has.

The slots of a subroutine are numbered in sixteen bits, so that up to 65536 of them are told apart.
As ids are told apart too, an allocation that is found for a slot was made for that slot and has the
size of what the slot holds.
-/

namespace Cartridge.Program

/-- No subroutine has more slots than sixteen bits tell apart. -/
def TypeTable.FewSlots (types : TypeTable) : Prop :=
  ∀ subroutine ∈ types.subroutines,
    subroutine.parameters.length ≤ 0x10000 ∧ subroutine.locals.length ≤ 0x10000

theorem TypeTable.WellFormed.field?_id {types : TypeTable} (wellFormed : types.WellFormed)
    {type : DeclaredType} (declared : type ∈ types.types) {field : Field}
    (member : field ∈ type.fields) : types.field? field.id = some field := by
  obtain ⟨owner, foundType⟩ := List.getElem?_of_mem declared
  obtain ⟨index, inType⟩ := List.getElem?_of_mem member
  have found : types.field? ⟨owner, index⟩ = some field :=
    field?_eq_some.mpr ⟨type, foundType, inType⟩
  rwa [wellFormed.fieldId _ field found]

end Cartridge.Program

namespace Cartridge.Memory

open Program (CallGraph Subroutine TypeTable)

/-- Everything that gets an address: the temporaries, static fields, and the parameters and locals
of subroutines that are compiled. -/
inductive Requested (types : TypeTable) (graph : CallGraph) : Request → Prop
  | temporary {n} (few : n < 2) :
    Requested types graph { symbol := temporary n, size := 1 }
  | field {type field} (declared : type ∈ types.types) (member : field ∈ type.fields)
    (static : field.isStatic = true) :
    Requested types graph
      { slot? := some (.field field.id)
        symbol := Asm.mangle (type.name ++ "_" ++ field.name)
        size := field.type.size }
  | argument {subroutine n type} (member : subroutine ∈ types.subroutines)
    (compiled : hasSlots graph subroutine = true)
    (found : subroutine.parameters[n]? = some type) :
    Requested types graph
      { slot? := some (.argument subroutine.id (UInt16.ofNat n))
        symbol := subroutine.label ++ "_P" ++ Text.decimal n
        size := type.size }
  | local {subroutine n type} (member : subroutine ∈ types.subroutines)
    (compiled : hasSlots graph subroutine = true) (found : subroutine.locals[n]? = some type) :
    Requested types graph
      { slot? := some (.local subroutine.id (UInt16.ofNat n))
        symbol := subroutine.label ++ "_L" ++ Text.decimal n
        size := type.size }

variable {types : TypeTable} {graph : CallGraph} {ram : Ram} {memory : Map}

theorem requested_of_mem {request : Request} (asked : request ∈ requests types graph) :
    Requested types graph request := by
  simp only [requests, List.mem_append, List.mem_flatMap] at asked
  rcases asked with (temporary | field) | ⟨subroutine, member, slot⟩
  · obtain ⟨n, few, rfl⟩ := List.mem_map.mp temporary
    exact .temporary (List.mem_range.mp few)
  · obtain ⟨type, declared, inType⟩ := List.mem_flatMap.mp field
    obtain ⟨field, static, rfl⟩ := List.mem_map.mp inType
    obtain ⟨inside, isStatic⟩ := List.mem_filter.mp static
    exact .field declared inside isStatic
  · obtain ⟨inTable, compiled⟩ := List.mem_filter.mp member
    rcases List.mem_append.mp slot with argument | other
    · obtain ⟨⟨type, n⟩, found, rfl⟩ := List.mem_map.mp argument
      exact .argument inTable compiled (List.mk_mem_zipIdx_iff_getElem?.mp found)
    · obtain ⟨⟨type, n⟩, found, rfl⟩ := List.mem_map.mp other
      exact .local inTable compiled (List.mk_mem_zipIdx_iff_getElem?.mp found)

theorem requested_of_find? (allocated : Map.allocate types graph ram = .ok memory) {slot : Slot}
    {allocation : Allocation} (found : memory.find? slot = some allocation) :
    Requested types graph
      { slot? := some slot, symbol := allocation.symbol, size := allocation.size } := by
  obtain ⟨position, request, -, asked, marked, named, sized⟩ :=
    (serves_of_allocate allocated).of_find? found
  rw [← marked, named, sized]
  exact requested_of_mem (List.mem_of_getElem? asked)

/-- Slots that are told apart have different allocations. -/
theorem position_ne (allocated : Map.allocate types graph ram = .ok memory) {slot other : Slot}
    {allocation otherAllocation : Allocation} (differ : slot ≠ other)
    (found : memory.find? slot = some allocation)
    (foundOther : memory.find? other = some otherAllocation) :
    ∃ position otherPosition : Nat, memory.allocations[position]? = some allocation ∧
      memory.allocations[otherPosition]? = some otherAllocation ∧ position ≠ otherPosition := by
  have serves := serves_of_allocate allocated
  obtain ⟨position, request, placed, asked, marked, -⟩ := serves.of_find? found
  obtain ⟨otherPosition, otherRequest, placedToo, askedToo, markedToo, -⟩ :=
    serves.of_find? foundOther
  refine ⟨position, otherPosition, placed, placedToo, ?_⟩
  rintro rfl
  obtain rfl := Option.some.inj (asked.symm.trans askedToo)
  exact differ (Option.some.inj (marked.symm.trans markedToo))

theorem eq_of_ofNat_eq {first second count : Nat} (few : count ≤ 0x10000) (below : first < count)
    (belowToo : second < count) (same : UInt16.ofNat first = UInt16.ofNat second) :
    first = second := by
  have numbers := congrArg UInt16.toNat same
  rw [UInt16.toNat_ofNat', UInt16.toNat_ofNat'] at numbers
  omega

/-- Of not too many entries, those with the same number are the same. -/
theorem eq_of_numbered {α : Type} {entries : List α} (few : entries.length ≤ 0x10000)
    {n m : Nat} {first second : α} (here : entries[n]? = some first)
    (there : entries[m]? = some second) (same : UInt16.ofNat n = UInt16.ofNat m) :
    first = second := by
  have below := (List.getElem?_eq_some_iff.mp here).1
  have belowToo := (List.getElem?_eq_some_iff.mp there).1
  obtain rfl := eq_of_ofNat_eq few below belowToo same
  exact Option.some.inj (here.symm.trans there)

variable {id : SubroutineId} {subroutine : Subroutine} {n : Nat} {type : ValueType}
  {allocation : Allocation}

theorem size_of_argument? (allocated : Map.allocate types graph ram = .ok memory)
    (wellFormed : types.WellFormed) (found : types.subroutine? id = some subroutine)
    (few : subroutine.parameters.length ≤ 0x10000)
    (parameter : subroutine.parameters[n]? = some type)
    (placed : memory.argument? id (UInt16.ofNat n) = some allocation) :
    allocation.size = type.size := by
  have asked := requested_of_find? allocated placed
  generalize made : Request.mk _ _ _ = request at asked
  cases asked with
  | argument member compiled parameterToo =>
    obtain ⟨slot, -, size⟩ := Request.mk.inj made
    obtain ⟨rfl, number⟩ := Slot.argument.inj (Option.some.inj slot)
    obtain rfl := Option.some.inj (found.symm.trans (wellFormed.subroutine?_id member))
    obtain rfl := eq_of_numbered few parameter parameterToo number
    exact size
  | _ => cases made

theorem size_of_local? (allocated : Map.allocate types graph ram = .ok memory)
    (wellFormed : types.WellFormed) (found : types.subroutine? id = some subroutine)
    (few : subroutine.locals.length ≤ 0x10000) (declared : subroutine.locals[n]? = some type)
    (placed : memory.local? id (UInt16.ofNat n) = some allocation) :
    allocation.size = type.size := by
  have asked := requested_of_find? allocated placed
  generalize made : Request.mk _ _ _ = request at asked
  cases asked with
  | «local» member compiled declaredToo =>
    obtain ⟨slot, -, size⟩ := Request.mk.inj made
    obtain ⟨rfl, number⟩ := Slot.local.inj (Option.some.inj slot)
    obtain rfl := Option.some.inj (found.symm.trans (wellFormed.subroutine?_id member))
    obtain rfl := eq_of_numbered few declared declaredToo number
    exact size
  | _ => cases made

theorem size_of_field? (allocated : Map.allocate types graph ram = .ok memory)
    (wellFormed : types.WellFormed) {id : FieldId} {field : Program.Field}
    (found : types.field? id = some field) (placed : memory.field? id = some allocation) :
    allocation.size = field.type.size := by
  have asked := requested_of_find? allocated placed
  generalize made : Request.mk _ _ _ = request at asked
  cases asked with
  | @field type other declared member static =>
    obtain ⟨slot, -, size⟩ := Request.mk.inj made
    obtain rfl := Slot.field.inj (Option.some.inj slot)
    obtain rfl := Option.some.inj (found.symm.trans (wellFormed.field?_id declared member))
    exact size
  | _ => cases made

end Cartridge.Memory

namespace Cartridge.Emit

open Program (Bodies CallGraph Subroutine TypeTable field?_withBodies subroutine?_withBodies)

/-- A site in a program, with the memory that was allocated for it. Some of its subroutines may
have got their bodies. -/
structure Site.PartOf (site : Site) (types : TypeTable) (graph : CallGraph) (ram : Memory.Ram) :
    Prop where
  bodies : ∃ bodies, site.types = types.withBodies bodies
  subroutine : types.subroutine? site.subroutine.id = some site.subroutine
  memory : Memory.Map.allocate types graph ram = .ok site.memory

namespace Site.PartOf

variable {site : Site} {types : TypeTable} {graph : CallGraph} {ram : Memory.Ram}
  {allocation : Memory.Allocation} {type : ValueType}

/-- A slot has the size of what it holds. -/
theorem size_of_slot? (part : site.PartOf types graph ram) (wellFormed : types.WellFormed)
    (few : types.FewSlots) {operand : Code.Operand}
    (slot : site.slot? operand = some (allocation, type)) : allocation.size = type.size := by
  obtain ⟨bodies, filled⟩ := part.bodies
  obtain ⟨fewParameters, fewLocals⟩ :=
    few site.subroutine (Program.mem_subroutines.mpr ⟨_, part.subroutine⟩)
  cases operand with
  | «local» n =>
    obtain ⟨found, placed, rest⟩ := Option.bind_eq_some_iff.mp slot
    obtain ⟨held, known, made⟩ := Option.bind_eq_some_iff.mp rest
    cases made
    rw [← UInt16.ofNat_toNat (x := n)] at placed
    exact Memory.size_of_local? part.memory wellFormed part.subroutine fewLocals known placed
  | argument n =>
    obtain ⟨found, placed, rest⟩ := Option.bind_eq_some_iff.mp slot
    obtain ⟨held, known, made⟩ := Option.bind_eq_some_iff.mp rest
    cases made
    rw [← UInt16.ofNat_toNat (x := n)] at placed
    exact Memory.size_of_argument? part.memory wellFormed part.subroutine fewParameters known placed
  | field id =>
    obtain ⟨field, known, rest⟩ := Option.bind_eq_some_iff.mp slot
    rw [filled, field?_withBodies] at known
    split at rest
    next =>
      obtain ⟨found, placed, made⟩ := Option.bind_eq_some_iff.mp rest
      cases made
      exact Memory.size_of_field? part.memory wellFormed known placed
    next => contradiction
  | _ => contradiction

theorem size_of_argument? (part : site.PartOf types graph ram) (wellFormed : types.WellFormed)
    {id : SubroutineId} {callee : Subroutine} (found : site.types.subroutine? id = some callee)
    (few : callee.parameters.length ≤ 0x10000) {n : Nat}
    (parameter : callee.parameters[n]? = some type)
    (placed : site.memory.argument? callee.id (UInt16.ofNat n) = some allocation) :
    allocation.size = type.size := by
  obtain ⟨bodies, filled⟩ := part.bodies
  rw [filled, subroutine?_withBodies] at found
  obtain ⟨source, present, rfl⟩ := Option.map_eq_some_iff.mp found
  rw [Program.Subroutine.id_withBody, wellFormed.subroutineId id source present] at placed
  exact Memory.size_of_argument? part.memory wellFormed present few parameter placed

end Site.PartOf

/-- Each body was made at a part of the program. -/
theorem exists_partOf_of_compiles {types : TypeTable} {graph : CallGraph} {ram : Memory.Ram}
    {memory : Memory.Map} {library : Asm.Library} {optimize : Bool} {done : List SubroutineId}
    {bodies : Bodies} (wellFormed : types.WellFormed)
    (allocated : Memory.Map.allocate types graph ram = .ok memory)
    (ran : Compiles types memory library optimize done bodies) {id : SubroutineId}
    {subroutine : Subroutine} {body : Program.Body} (found : types.subroutine? id = some subroutine)
    (present : bodies id = some body) :
    ∃ site : Site, site.PartOf types graph ram ∧ site.subroutine = subroutine ∧
      subroutineBody library optimize site = .ok body := by
  refine ran.forall_body (motive := fun subroutine body => ∃ site : Site,
    site.PartOf types graph ram ∧ site.subroutine = subroutine ∧
      subroutineBody library optimize site = .ok body) wellFormed ?_ found present
  intro subroutine body bodies found _ _ _ made
  exact ⟨_, ⟨⟨bodies, rfl⟩, found, allocated⟩, rfl, made⟩

end Cartridge.Emit

namespace Cartridge.Listing.Image.MadeFrom

open Program (Bodies Subroutine)

/-- The bodies of an image were made at parts of its program. -/
theorem exists_partOf {image : Image} {library : Asm.Library} {optimize : Bool} {program : Program}
    {bodies : Bodies} (made : image.MadeFrom library optimize program bodies) {id : SubroutineId}
    {subroutine : Subroutine} {body : Program.Body}
    (found : image.program.types.subroutine? id = some subroutine)
    (present : subroutine.body? = some body) :
    ∃ site : Emit.Site, site.PartOf program.types image.graph image.ram ∧
      site.subroutine.id = subroutine.id ∧
      Emit.subroutineBody library optimize site = .ok body := by
  rw [made.result, Program.subroutine?_withBodies] at found
  obtain ⟨source, declared, rfl⟩ := Option.map_eq_some_iff.mp found
  have filled : bodies id = some body := by
    rw [← made.wellFormed.subroutineId id source declared]
    exact present
  obtain ⟨site, part, rfl, compiled⟩ :=
    Emit.exists_partOf_of_compiles made.wellFormed made.memory made.ran declared filled
  exact ⟨site, part, rfl, compiled⟩

end Cartridge.Listing.Image.MadeFrom
