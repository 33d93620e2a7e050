import Cartridge.Proofs.Keys
import Cartridge.Proofs.Parts
import Mathlib.Data.List.Nodup

/-!
A table once its bodies are filled in.

Every table on the way is the resolved one with some bodies put in, so that nothing else can differ
in the end, and each lookup finds what it found before. A body is there exactly if its turn came in
the order of the call graph and calls are not replaced. What is laid out follows from both.
-/

namespace Cartridge.Program

def Subroutine.bare (subroutine : Subroutine) : Subroutine :=
  subroutine.withBody fun _ => none

def DeclaredType.bare (type : DeclaredType) : DeclaredType :=
  type.withBodies fun _ => none

/-- A table as it was before it got any bodies. -/
def TypeTable.bare (types : TypeTable) : TypeTable :=
  types.withBodies fun _ => none

/-- The second table has the contents of the first and gives its answers, bodies aside. -/
structure TypeTable.SameButBodies (source filled : TypeTable) : Prop where
  bare : filled.bare = source
  get? : ∀ id, (filled.get? id).map (·.bare) = source.get? id
  lookup? : ∀ name, (filled.lookup? name).map (·.bare) = source.lookup? name
  field? : ∀ id, filled.field? id = source.field? id
  subroutine? : ∀ id, (filled.subroutine? id).map (·.bare) = source.subroutine? id
  subroutines : filled.subroutines.map (·.bare) = source.subroutines
  members : ∀ type ∈ filled.types, ∀ name,
    type.fieldIndex? name = type.bare.fieldIndex? name ∧
      type.subroutineIndex? name = type.bare.subroutineIndex? name

section Bodies

variable {types : TypeTable}

theorem lookup?_withBodies (bodies : Bodies) (name : String) :
    (types.withBodies bodies).lookup? name = (types.lookup? name).map (·.withBodies bodies) := by
  cases found : types.names.lookup name with
  | none => simp [TypeTable.lookup?, TypeTable.withBodies, found]
  | some id =>
    simpa [TypeTable.lookup?, TypeTable.withBodies, found] using get?_withBodies bodies id

theorem bare_withBodies (wellFormed : types.WellFormed) (bodies : Bodies) :
    (types.withBodies bodies).bare = types := by
  have twice : (types.withBodies bodies).bare = types.withBodies fun _ => none := by
    simp [TypeTable.bare, TypeTable.withBodies, DeclaredType.withBodies, Subroutine.withBody,
      Function.comp_def]
  rw [twice, withBodies_none wellFormed]

theorem subroutineIndex?_bare (type : DeclaredType) (name : String) :
    type.bare.subroutineIndex? name = type.subroutineIndex? name := by
  rw [DeclaredType.subroutineIndex?, DeclaredType.bare, DeclaredType.withBodies, List.findIdx?_map]
  rfl

/-- All answers agree as soon as the contents do. -/
theorem sameButBodies_of_bare {source filled : TypeTable} (same : filled.bare = source) :
    source.SameButBodies filled := by
  subst same
  refine ⟨rfl, ?_, ?_, ?_, ?_, ?_, ?_⟩
  · intro id
    exact (get?_withBodies _ id).symm
  · intro name
    exact (lookup?_withBodies _ name).symm
  · intro id
    exact (field?_withBodies _ id).symm
  · intro id
    exact (subroutine?_withBodies _ id).symm
  · exact (subroutines_withBodies _).symm
  · intro type _ name
    exact ⟨rfl, (subroutineIndex?_bare type name).symm⟩

theorem TypeTable.WellFormed.bare_withBody (wellFormed : types.WellFormed) (bodies : Bodies)
    {subroutine : Subroutine} (member : subroutine ∈ types.subroutines) :
    (subroutine.withBody bodies).bare = subroutine := by
  obtain ⟨id, found⟩ := mem_subroutines.mp member
  have bodiless := wellFormed.bodiless id subroutine found
  change subroutine.withBody (fun _ => none) = subroutine
  exact Subroutine.withBody_of_none bodiless rfl

/-- No two subroutines of a table share an id. -/
theorem TypeTable.WellFormed.nodup_ids (wellFormed : types.WellFormed) :
    (types.subroutines.map (·.id)).Nodup := by
  apply nodup_keys_of_places fun id : SubroutineId => (id.owner, id.index)
  intro owner type index subroutine foundType found
  rw [wellFormed.id_of_getElem? foundType found]

end Bodies

/-- Whether a subroutine has a place of its own as soon as it is called. -/
def Subroutine.standsAlone (subroutine : Subroutine) : Bool :=
  subroutine.intrinsic? != some .alwaysInline && !subroutine.replacesCall

end Cartridge.Program

namespace Cartridge.Emit.Compiles

open Program

variable {types : TypeTable} {graph : CallGraph} {memory : Memory.Map} {library : Asm.Library}
  {optimize : Bool} {bodies : Bodies}

theorem isSome_iff (wellFormed : types.WellFormed)
    (ran : Compiles types memory library optimize graph.order bodies) {subroutine : Subroutine}
    (member : subroutine ∈ types.subroutines) :
    (bodies subroutine.id).isSome = true ↔
      graph.contains subroutine.id = true ∧ subroutine.replacesCall = false := by
  have found := wellFormed.subroutine?_id member
  rw [CallGraph.contains_iff]
  constructor
  · intro filled
    obtain ⟨body, present⟩ := Option.isSome_iff_exists.mp filled
    refine ⟨?_, ran.replacesCall_eq_false found present⟩
    by_contra absent
    rw [ran.eq_none absent] at present
    contradiction
  · intro compiled
    exact ran.isSome compiled.1 found compiled.2

end Cartridge.Emit.Compiles

namespace Cartridge.Listing.Image

open Program

variable {types : TypeTable} {graph : CallGraph} {memory : Memory.Map} {library : Asm.Library}
  {optimize : Bool} {bodies : Bodies}

/-- The listing goes through the subroutines of the table that stand alone, each at its turn. -/
theorem emitted_bare (wellFormed : types.WellFormed)
    (ran : Emit.Compiles types memory library optimize graph.order bodies) {image : Image}
    (filled : image.program.types = types.withBodies bodies) (called : image.graph = graph) :
    image.emitted.map (·.bare) = types.subroutines.filter fun subroutine =>
      graph.contains subroutine.id && subroutine.standsAlone := by
  have emits : ∀ subroutine ∈ types.subroutines,
      image.emits (subroutine.withBody bodies) =
        (graph.contains subroutine.id && subroutine.standsAlone) := by
    intro subroutine member
    have bodied := ran.isSome_iff wellFormed member
    rw [Bool.eq_iff_iff]
    simp only [Image.emits, Subroutine.standsAlone, called, Bool.and_eq_true, bne_iff_ne,
      Bool.not_eq_true', Subroutine.id_withBody, Subroutine.body?_withBody,
      Subroutine.intrinsic?_withBody, bodied]
    tauto
  have kept : ∀ subroutine ∈ types.subroutines.filter (image.emits ∘ (·.withBody bodies)),
      (subroutine.withBody bodies).bare = subroutine := by
    intro subroutine member
    exact wellFormed.bare_withBody bodies (List.mem_filter.mp member).1
  calc image.emitted.map (·.bare)
      = (types.subroutines.filter (image.emits ∘ (·.withBody bodies))).map
          ((·.bare) ∘ (·.withBody bodies)) := by
        rw [emitted, filled, subroutines_withBodies, List.filter_map, List.map_map]
    _ = types.subroutines.filter (image.emits ∘ (·.withBody bodies)) :=
        (List.map_congr_left kept).trans (List.map_id' _)
    _ = types.subroutines.filter fun subroutine =>
          graph.contains subroutine.id && subroutine.standsAlone :=
        List.filter_congr emits

theorem nodup_emitted (wellFormed : types.WellFormed) {image : Image}
    (filled : image.program.types = types.withBodies bodies) :
    (image.emitted.map (·.id)).Nodup := by
  have ids : (types.withBodies bodies).subroutines.map (·.id) = types.subroutines.map (·.id) := by
    rw [subroutines_withBodies, List.map_map]
    rfl
  have part : (image.emitted.map (·.id)).Sublist (types.subroutines.map (·.id)) := by
    rw [emitted, filled, ← ids]
    exact List.filter_sublist.map _
  exact part.nodup wellFormed.nodup_ids

theorem lines_of_entry {image : Image} {entry : Subroutine}
    (found : image.program.types.subroutine? image.program.entry = some entry) :
    image.lines = image.openingLines ++
      (.label entry.label :: prologue image.ram ++ bodyLines entry) ++
      image.others.flatMap (fun subroutine =>
        [.blank, .comment subroutine.fullName, .label subroutine.label] ++ bodyLines subroutine) ++
      vectorLines := by
  have entries :
      entryLines image = .label entry.label :: prologue image.ram ++ bodyLines entry := by
    rw [entryLines, found]
    rfl
  rw [lines, entries]
  simp only [openingLines, others, vectorLines, List.append_assoc]
  rfl

end Cartridge.Listing.Image

namespace Cartridge

open Program (CallGraph Reachable)

/-- Compiling all that can be reached changes nothing in a table but the bodies, which it gives to
exactly those subroutines that are called and not replaced. The listing has the entry with its body
and then every other subroutine that stands alone, once and in the order of the table. -/
theorem compileAll_fills_bodies {module : Source.Module} {program : Program} {graph : CallGraph}
    {memory : Memory.Map} {library : Asm.Library} {optimize : Bool} {types : Program.TypeTable}
    (resolved : Program.ofModule module = .ok program)
    (built : CallGraph.build program.types = .ok graph)
    (filled : Emit.compileAll program.types graph memory library optimize = .ok types) :
    program.types.SameButBodies types ∧
    (∀ subroutine ∈ types.subroutines, subroutine.body?.isSome = true ↔
      graph.contains subroutine.id = true ∧ subroutine.replacesCall = false) ∧
    (∀ id, graph.contains id = true ↔ Reachable program.types id) ∧
    ∀ image : Listing.Image, image.program = { program with types } → image.graph = graph →
      image.emitted.map (·.bare) = program.types.subroutines.filter (fun subroutine =>
        graph.contains subroutine.id && subroutine.standsAlone) ∧
      (image.emitted.map (·.id)).Nodup ∧
      ∃ entry, types.subroutine? program.entry = some entry ∧
        image.lines = image.openingLines ++
          (.label entry.label :: Listing.prologue image.ram ++ Listing.bodyLines entry) ++
          (image.emitted.filter (·.id != program.entry)).flatMap (fun subroutine =>
            [.blank, .comment subroutine.fullName, .label subroutine.label] ++
              Listing.bodyLines subroutine) ++
          Listing.Image.vectorLines := by
  obtain ⟨wellFormed, marked⟩ := Program.ofModule_eq_ok resolved
  obtain ⟨bodies, ran, rfl⟩ : ∃ bodies,
      Emit.Compiles program.types memory library optimize graph.order bodies ∧
        types = program.types.withBodies bodies := by
    rcases compileAll_cases wellFormed built memory library optimize with
      ⟨bodies, ran, complete⟩ | ⟨_, _, _, _, _, fault, _, _, _, _, _, failed⟩
    · exact ⟨bodies, ran, Except.ok.inj (filled.symm.trans complete)⟩
    · rw [failed] at filled
      contradiction
  refine ⟨Program.sameButBodies_of_bare (Program.bare_withBodies wellFormed bodies), ?_, ?_, ?_⟩
  · intro subroutine member
    rw [Program.subroutines_withBodies] at member
    obtain ⟨source, declared, rfl⟩ := List.mem_map.mp member
    exact ran.isSome_iff wellFormed declared
  · intro id
    rw [CallGraph.contains_iff, CallGraph.mem_order built]
  · intro image made called
    have table : image.program.types = program.types.withBodies bodies := by rw [made]
    obtain ⟨source, found, -⟩ := Program.entry_of_findEntry wellFormed marked
    have entry : (program.types.withBodies bodies).subroutine? program.entry =
        some (source.withBody bodies) := by
      rw [Program.subroutine?_withBodies, found, Option.map_some]
    refine ⟨Listing.Image.emitted_bare wellFormed ran table called,
      Listing.Image.nodup_emitted wellFormed table, source.withBody bodies, entry, ?_⟩
    have same : image.program.entry = program.entry := by rw [made]
    rw [Listing.Image.lines_of_entry (by rwa [table, same]), Listing.Image.others, same]

theorem compileAll_fills_bodies_arcade :
    ∃ program graph memory types, Program.ofModule arcade = .ok program ∧
      CallGraph.build program.types = .ok graph ∧
      Emit.compileAll program.types graph memory shelf true = .ok types ∧
      types.subroutines.map (fun subroutine => (subroutine.name, subroutine.body?.isSome)) =
        [("Main", true), ("Pair", false), ("Probe", true), ("Settle", true), ("Paint", false)] ∧
      program.types.SameButBodies types ∧
      ∀ image : Listing.Image, image.program = { program with types } → image.graph = graph →
        image.emitted.map (·.bare) = program.types.subroutines.filter (fun subroutine =>
          graph.contains subroutine.id && subroutine.standsAlone) := by
  have passed : (compile arcade shelf {}).toOption.any (fun image =>
      image.program.types.subroutines.map (fun subroutine =>
        (subroutine.name, subroutine.body?.isSome)) ==
        [("Main", true), ("Pair", false), ("Probe", true), ("Settle", true),
          ("Paint", false)]) = true := by
    decide +kernel
  obtain ⟨image, compiled, bodies⟩ := exists_of_any passed
  obtain ⟨program, resolved, next⟩ := Emit.bind_eq_ok.mp compiled
  obtain ⟨graph, built, more⟩ := Emit.bind_eq_ok.mp next
  obtain ⟨memory, -, further⟩ := Emit.bind_eq_ok.mp more
  obtain ⟨types, ran, made⟩ := Emit.bind_eq_ok.mp further
  rw [single_eq_ok] at resolved ran
  rw [callGraph_eq_ok] at built
  obtain rfl := Emit.pure_eq_ok.mp made
  obtain ⟨same, -, -, laidOut⟩ := compileAll_fills_bodies resolved built ran
  refine ⟨program, graph, memory, types, resolved, built, ran, by simpa using bodies, same, ?_⟩
  intro image made called
  exact (laidOut image made called).1

end Cartridge
