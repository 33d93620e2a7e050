import Cartridge.Proofs.CallOrder
import Cartridge.Proofs.Resolution
import Mathlib.Logic.Function.Basic

/-!
How a resolved program gets its bodies, one subroutine after another.

Compilation changes nothing in a table but the bodies, so every table on the way is the resolved one
with some bodies filled in. A body is made from the bodies of the subroutines that come before in
the order of the call graph, which include all that are called. What holds of every body is
therefore shown by going along that order.
-/

namespace Cartridge.Program

abbrev Bodies := SubroutineId → Option Body

namespace Subroutine

def withBody (bodies : Bodies) (subroutine : Subroutine) : Subroutine :=
  { subroutine with body? := bodies subroutine.id }

variable (bodies : Bodies) (subroutine : Subroutine)

@[simp] theorem id_withBody : (subroutine.withBody bodies).id = subroutine.id := rfl

@[simp] theorem body?_withBody : (subroutine.withBody bodies).body? = bodies subroutine.id := rfl

@[simp] theorem fullName_withBody : (subroutine.withBody bodies).fullName = subroutine.fullName :=
  rfl

@[simp] theorem label_withBody : (subroutine.withBody bodies).label = subroutine.label := rfl

@[simp] theorem parameters_withBody :
    (subroutine.withBody bodies).parameters = subroutine.parameters := rfl

@[simp] theorem returns_withBody : (subroutine.withBody bodies).returns = subroutine.returns := rfl

@[simp] theorem intrinsic?_withBody :
    (subroutine.withBody bodies).intrinsic? = subroutine.intrinsic? := rfl

@[simp] theorem replacesCall_withBody :
    (subroutine.withBody bodies).replacesCall = subroutine.replacesCall := rfl

theorem withBody_of_none {bodies : Bodies} {subroutine : Subroutine}
    (bodiless : subroutine.body? = none) (absent : bodies subroutine.id = none) :
    subroutine.withBody bodies = subroutine := by
  rw [withBody, absent, ← bodiless]

end Subroutine

def DeclaredType.withBodies (bodies : Bodies) (type : DeclaredType) : DeclaredType :=
  { type with subroutines := type.subroutines.map (·.withBody bodies) }

def TypeTable.withBodies (types : TypeTable) (bodies : Bodies) : TypeTable :=
  { types with types := types.types.map (·.withBodies bodies) }

section Tables

variable {types : TypeTable} {bodies : Bodies} {id : SubroutineId} {subroutine : Subroutine}

theorem get?_withBodies (bodies : Bodies) (id : TypeId) :
    (types.withBodies bodies).get? id = (types.get? id).map (·.withBodies bodies) :=
  List.getElem?_map

theorem subroutine?_withBodies (bodies : Bodies) (id : SubroutineId) :
    (types.withBodies bodies).subroutine? id =
      (types.subroutine? id).map (·.withBody bodies) := by
  simp only [TypeTable.subroutine?, Option.bind_eq_bind, get?_withBodies]
  cases types.get? id.owner with
  | none => rfl
  | some type => exact List.getElem?_map

theorem field?_withBodies (bodies : Bodies) (id : FieldId) :
    (types.withBodies bodies).field? id = types.field? id := by
  simp only [TypeTable.field?, Option.bind_eq_bind, get?_withBodies]
  cases types.get? id.owner <;> rfl

theorem subroutines_withBodies (bodies : Bodies) :
    (types.withBodies bodies).subroutines = types.subroutines.map (·.withBody bodies) := by
  simp only [TypeTable.subroutines, TypeTable.withBodies, List.flatMap_map, List.map_flatMap,
    DeclaredType.withBodies]

theorem TypeTable.WellFormed.id_of_getElem? (wellFormed : types.WellFormed) {owner index : Nat}
    {type : DeclaredType} (foundType : types.types[owner]? = some type)
    (found : type.subroutines[index]? = some subroutine) : subroutine.id = ⟨owner, index⟩ :=
  wellFormed.subroutineId ⟨owner, index⟩ subroutine
    (subroutine?_eq_some.mpr ⟨type, foundType, found⟩)

theorem calls_withBodies {bodies : Bodies} {caller callee : SubroutineId} :
    Calls (types.withBodies bodies) caller callee ↔ Calls types caller callee := by
  simp only [Calls, subroutine?_withBodies, Option.map_eq_some_iff]
  constructor
  · rintro ⟨_, ⟨source, found, rfl⟩, executed, calls⟩
    exact ⟨source, found, executed, calls⟩
  · rintro ⟨source, found, executed, calls⟩
    exact ⟨_, ⟨source, found, rfl⟩, executed, calls⟩

theorem TypeTable.LoadsBytes.withBodies (narrow : types.LoadsBytes) (bodies : Bodies) :
    (types.withBodies bodies).LoadsBytes := by
  intro id subroutine symbol found loads
  rw [subroutine?_withBodies, Option.map_eq_some_iff] at found
  obtain ⟨source, foundSource, rfl⟩ := found
  exact narrow id source symbol foundSource loads

theorem withBodies_none (wellFormed : types.WellFormed) :
    types.withBodies (fun _ => none) = types := by
  have same : ∀ type ∈ types.types, type.withBodies (fun _ => none) = type := by
    intro type declared
    obtain ⟨owner, foundType⟩ := List.getElem?_of_mem declared
    have kept : ∀ subroutine ∈ type.subroutines,
        subroutine.withBody (fun _ => none) = subroutine := by
      intro subroutine inside
      obtain ⟨index, found⟩ := List.getElem?_of_mem inside
      exact Subroutine.withBody_of_none
        (wellFormed.bodiless ⟨owner, index⟩ subroutine
          (subroutine?_eq_some.mpr ⟨type, foundType, found⟩)) rfl
    rw [DeclaredType.withBodies, List.map_congr_left kept, List.map_id']
  rw [TypeTable.withBodies, List.map_congr_left same, List.map_id']

theorem withBodies_update_of_ne (wellFormed : types.WellFormed) {owner : TypeId}
    {type : DeclaredType} (foundType : types.types[owner]? = some type) (other : id.owner ≠ owner)
    (body? : Option Body) :
    type.withBodies (Function.update bodies id body?) = type.withBodies bodies := by
  have same : ∀ subroutine ∈ type.subroutines,
      subroutine.withBody (Function.update bodies id body?) = subroutine.withBody bodies := by
    intro subroutine inside
    obtain ⟨index, found⟩ := List.getElem?_of_mem inside
    have named := wellFormed.id_of_getElem? foundType found
    have elsewhere : subroutine.id ≠ id := by
      rintro rfl
      exact other (by rw [named])
    rw [Subroutine.withBody, Function.update_of_ne elsewhere, Subroutine.withBody]
  rw [DeclaredType.withBodies, List.map_congr_left same, DeclaredType.withBodies]

theorem withBodies_update (wellFormed : types.WellFormed) {type : DeclaredType}
    (foundType : types.types[id.owner]? = some type)
    (found : type.subroutines[id.index]? = some subroutine) (body? : Option Body) :
    type.withBodies (Function.update bodies id body?) =
      { type.withBodies bodies with
        subroutines := (type.withBodies bodies).subroutines.set id.index
          { subroutine with body? := body? } } := by
  have listed : type.subroutines.map (·.withBody (Function.update bodies id body?)) =
      (type.subroutines.map (·.withBody bodies)).set id.index
        { subroutine with body? := body? } := by
    apply List.ext_getElem?
    intro index
    rw [List.getElem?_set, List.getElem?_map, List.length_map]
    by_cases here : id.index = index
    · subst here
      have named := wellFormed.id_of_getElem? foundType found
      have inside := (List.getElem?_eq_some_iff.mp found).1
      rw [if_pos rfl, if_pos inside, found, Option.map_some, Subroutine.withBody, named,
        Function.update_self]
    · rw [if_neg here, List.getElem?_map]
      cases foundOther : type.subroutines[index]? with
      | none => rfl
      | some other =>
        have named := wellFormed.id_of_getElem? foundType foundOther
        have elsewhere : other.id ≠ id := by
          rw [named]
          exact fun same => here (congrArg SubroutineId.index same).symm
        rw [Option.map_some, Option.map_some, Subroutine.withBody,
          Function.update_of_ne elsewhere, Subroutine.withBody]
  rw [DeclaredType.withBodies, listed]
  rfl

/-- A body that is put into the table adds to those that are there. -/
theorem replaceSubroutine_withBodies (wellFormed : types.WellFormed)
    (found : types.subroutine? id = some subroutine) (body : Body) :
    (types.withBodies bodies).replaceSubroutine { subroutine with body? := some body } =
      .ok (types.withBodies (Function.update bodies id (some body))) := by
  obtain ⟨type, foundType, inside⟩ := subroutine?_eq_some.mp found
  have named := wellFormed.subroutineId id subroutine found
  have placed := wellFormed.typeId id.owner type foundType
  have present : (types.withBodies bodies).get? id.owner = some (type.withBodies bodies) := by
    rw [get?_withBodies, TypeTable.get?, foundType]
    rfl
  have member : (type.withBodies bodies).subroutines[id.index]? =
      some (subroutine.withBody bodies) := by
    rw [DeclaredType.withBodies, List.getElem?_map, inside]
    rfl
  have sameName : (subroutine.withBody bodies).name = subroutine.name := rfl
  have samePlace : (type.withBodies bodies).id = id.owner := placed
  simp only [TypeTable.replaceSubroutine, named, present, member, sameName, if_true,
    TypeTable.replaceType, samePlace, Except.ok.injEq]
  rw [TypeTable.withBodies, TypeTable.withBodies, TypeTable.mk.injEq]
  refine ⟨?_, rfl⟩
  apply List.ext_getElem?
  intro owner
  rw [List.getElem?_set, List.getElem?_map, List.length_map]
  by_cases here : id.owner = owner
  · subst here
    have bound := (List.getElem?_eq_some_iff.mp foundType).1
    rw [if_pos rfl, if_pos bound, List.getElem?_map, foundType, Option.map_some,
      withBodies_update wellFormed foundType inside]
    simp only [named, samePlace]
  · rw [if_neg here, List.getElem?_map]
    cases foundOther : types.types[owner]? with
    | none => rfl
    | some other =>
      rw [Option.map_some, Option.map_some, withBodies_update_of_ne wellFormed foundOther here]

end Tables

namespace CallGraph

variable {types : TypeTable} {graph : CallGraph} {id : SubroutineId}

theorem mem_order (built : build types = .ok graph) : id ∈ graph.order ↔ Reachable types id := by
  obtain ⟨-, rfl⟩ := build_eq_ok.mp built
  exact (Walk.search_complete types).mem_finished

theorem order_nodup (built : build types = .ok graph) : graph.order.Nodup := by
  obtain ⟨-, rfl⟩ := build_eq_ok.mp built
  exact (Walk.search_complete types).nodup

theorem callee_before (built : build types = .ok graph) {front rest : List SubroutineId}
    (split : graph.order = front ++ id :: rest) {callee : SubroutineId}
    (calls : Calls types id callee) : callee ∈ front := by
  obtain ⟨clean, rfl⟩ := build_eq_ok.mp built
  obtain ⟨nodes, more, finished, rfl, tail⟩ := List.map_eq_append_iff.mp split
  obtain ⟨node, behind, rfl, rfl, rfl⟩ := List.map_eq_cons_iff.mp tail
  have ordered := (Walk.search_complete types).invariant.ordered nodes node behind finished
  refine (ordered callee calls).resolve_right ?_
  rintro ⟨cycle, found, -⟩
  rw [clean] at found
  exact List.not_mem_nil found

end CallGraph

/-- Everything that can be reached is in the table. -/
theorem Reachable.subroutine?_isSome {types : TypeTable} (wellFormed : types.WellFormed)
    {id : SubroutineId} (reachable : Reachable types id) :
    ∃ subroutine, types.subroutine? id = some subroutine := by
  obtain ⟨root, ⟨subroutine, member, -, rfl⟩, path⟩ := reachable
  induction path with
  | refl => exact ⟨subroutine, wellFormed.subroutine?_id member⟩
  | tail _ calls _ =>
    obtain ⟨caller, found, -, instruction, inside, -, operand⟩ := calls
    have refers := (wellFormed.sound _ caller found instruction inside).refers
    rw [operand] at refers
    exact Option.isSome_iff_exists.mp refers

end Cartridge.Program

namespace Cartridge.Emit

open Asm (Library)
open Program

variable {types : TypeTable} {memory : Memory.Map} {library : Library} {optimize : Bool}

theorem compileInto_withBodies (wellFormed : types.WellFormed) {id : SubroutineId}
    {subroutine : Subroutine} (found : types.subroutine? id = some subroutine) {bodies : Bodies}
    (fresh : bodies id = none) :
    compileInto memory library optimize (types.withBodies bodies) id =
      if subroutine.replacesCall then .ok (types.withBodies bodies)
      else do
        let body ← subroutineBody library optimize ⟨types.withBodies bodies, memory, subroutine⟩
        return types.withBodies (Function.update bodies id (some body)) := by
  have named := wellFormed.subroutineId id subroutine found
  have same : subroutine.withBody bodies = subroutine := by
    apply Subroutine.withBody_of_none (wellFormed.bodiless id subroutine found)
    rw [named, fresh]
  have present : (types.withBodies bodies).subroutine? id = some subroutine := by
    rw [subroutine?_withBodies, found, Option.map_some, same]
  have replaced : ∀ body, (types.withBodies bodies).replaceSubroutine
      { subroutine with body? := some body } =
        .ok (types.withBodies (Function.update bodies id (some body))) :=
    replaceSubroutine_withBodies wellFormed found
  simp only [compileInto, present, replaced]
  rfl

theorem replacesCall_of_walksBody {subroutine : Subroutine} (walked : subroutine.walksBody = true) :
    subroutine.replacesCall = false := by
  rcases CallGraph.walksBody_eq_true.mp walked with plain | inline
  · rw [Subroutine.replacesCall, plain]
    rfl
  · rw [Subroutine.replacesCall, inline]
    rfl

theorem walksBody_of_kept {subroutine : Subroutine} (kept : subroutine.replacesCall = false)
    (compiled : ∀ implementation, subroutine.intrinsic? ≠ some (.useProvided implementation))
    (filled : subroutine.intrinsic? ≠ some .ignore) : subroutine.walksBody = true := by
  rw [CallGraph.walksBody_eq_true]
  rw [Subroutine.replacesCall] at kept
  cases marked : subroutine.intrinsic? with
  | none => exact .inl rfl
  | some intrinsic =>
    cases intrinsic with
    | alwaysInline => exact .inr rfl
    | useProvided implementation => exact absurd marked (compiled implementation)
    | ignore => exact absurd marked filled
    | _ => simp [marked, Intrinsic.replacesCall] at kept

/-- A body is taken over from the library, empty, or compiled. -/
theorem subroutineBody_eq_ok {site : Site} {body : Body}
    (kept : site.subroutine.replacesCall = false)
    (made : subroutineBody library optimize site = .ok body) :
    (∃ implementation, site.subroutine.intrinsic? = some (.useProvided implementation) ∧
      ∃ code, library.get? implementation = some code ∧ body = { code }) ∨
    (site.subroutine.intrinsic? = some .ignore ∧ body = { code := [.op .rts] }) ∨
    site.subroutine.walksBody = true ∧
      ∃ compiled, site.compile = .ok compiled ∧ body = optimizeBody optimize compiled := by
  unfold subroutineBody at made
  split at made
  next implementation marked =>
    split at made
    next code found =>
      obtain rfl := Except.ok.inj made
      exact .inl ⟨implementation, marked, code, found, rfl⟩
    next => contradiction
  next marked =>
    obtain rfl := Except.ok.inj made
    exact .inr (.inl ⟨marked, rfl⟩)
  next compiled filled =>
    obtain ⟨plain, done, result⟩ := bind_eq_ok.mp made
    exact .inr (.inr ⟨walksBody_of_kept kept compiled filled, plain, done,
      (pure_eq_ok.mp result).symm⟩)

/-- The bodies there are once the subroutines of a list were compiled. -/
inductive Compiles (types : TypeTable) (memory : Memory.Map) (library : Library)
    (optimize : Bool) : List SubroutineId → Bodies → Prop
  | start : Compiles types memory library optimize [] fun _ => none
  | replaced {done bodies id subroutine}
    (before : Compiles types memory library optimize done bodies)
    (found : types.subroutine? id = some subroutine) (replaced : subroutine.replacesCall = true) :
    Compiles types memory library optimize (done ++ [id]) bodies
  | compiled {done bodies id subroutine body}
    (before : Compiles types memory library optimize done bodies)
    (found : types.subroutine? id = some subroutine) (kept : subroutine.replacesCall = false)
    (fresh : id ∉ done)
    (made : subroutineBody library optimize ⟨types.withBodies bodies, memory, subroutine⟩ =
      .ok body) :
    Compiles types memory library optimize (done ++ [id]) (Function.update bodies id (some body))

namespace Compiles

variable {done : List SubroutineId} {bodies : Bodies}

theorem eq_none (ran : Compiles types memory library optimize done bodies) {id : SubroutineId}
    (absent : id ∉ done) : bodies id = none := by
  induction ran with
  | start => rfl
  | replaced before found replaced ih =>
    exact ih fun member => absent (List.mem_append_left _ member)
  | compiled before found kept fresh made ih =>
    rw [Function.update_of_ne]
    · exact ih fun member => absent (List.mem_append_left _ member)
    · rintro rfl
      exact absent (List.mem_append_right _ (List.mem_singleton.mpr rfl))

theorem isSome (ran : Compiles types memory library optimize done bodies) {id : SubroutineId}
    {subroutine : Subroutine} (member : id ∈ done)
    (found : types.subroutine? id = some subroutine) (kept : subroutine.replacesCall = false) :
    (bodies id).isSome = true := by
  induction ran with
  | start => contradiction
  | @replaced done bodies last other before foundLast replaced ih =>
    rcases List.mem_append.mp member with earlier | here
    · exact ih earlier
    · obtain rfl := List.mem_singleton.mp here
      obtain rfl := Option.some.inj (foundLast.symm.trans found)
      exact absurd replaced (by simp [kept])
  | @compiled done bodies last other body before foundLast keptLast fresh made ih =>
    by_cases same : id = last
    · rw [same, Function.update_self]
      rfl
    · rw [Function.update_of_ne same]
      refine ih ((List.mem_append.mp member).resolve_right fun here => ?_)
      exact same (List.mem_singleton.mp here)

theorem replacesCall_eq_false (ran : Compiles types memory library optimize done bodies)
    {id : SubroutineId} {subroutine : Subroutine} {body : Body}
    (found : types.subroutine? id = some subroutine) (present : bodies id = some body) :
    subroutine.replacesCall = false := by
  induction ran with
  | start => contradiction
  | replaced before foundLast replaced ih => exact ih present
  | @compiled done bodies last other made before foundLast kept fresh compiled ih =>
    by_cases same : id = last
    · subst same
      obtain rfl := Option.some.inj (foundLast.symm.trans found)
      exact kept
    · rw [Function.update_of_ne same] at present
      exact ih present

/-- What is kept by every compilation from bodies that are there in the end holds of all bodies. -/
theorem forall_body_within {motive : Subroutine → Body → Prop} (wellFormed : types.WellFormed)
    (ran : Compiles types memory library optimize done bodies) {after : Bodies}
    (within : ∀ id body, bodies id = some body → after id = some body)
    (step : ∀ (subroutine : Subroutine) (body : Body) (bodies : Bodies),
      types.subroutine? subroutine.id = some subroutine → subroutine.id ∈ done →
      subroutine.replacesCall = false →
      (∀ id body, bodies id = some body → after id = some body) →
      (∀ id other body, types.subroutine? id = some other → bodies id = some body →
        motive other body) →
      subroutineBody library optimize ⟨types.withBodies bodies, memory, subroutine⟩ = .ok body →
      motive subroutine body)
    {id : SubroutineId} {subroutine : Subroutine} {body : Body}
    (found : types.subroutine? id = some subroutine) (present : bodies id = some body) :
    motive subroutine body := by
  induction ran generalizing id subroutine body with
  | start => contradiction
  | replaced before foundLast replaced ih =>
    refine ih within (fun subroutine body bodies found member => ?_) found present
    exact step subroutine body bodies found (List.mem_append_left _ member)
  | @compiled done bodies last other made before foundLast kept fresh compiled ih =>
    have inside : ∀ id body, bodies id = some body → after id = some body := by
      intro known body filled
      have elsewhere : known ≠ last := by
        rintro rfl
        rw [before.eq_none fresh] at filled
        contradiction
      exact within known body (by rwa [Function.update_of_ne elsewhere])
    have earlier := @ih inside fun subroutine body bodies found member =>
      step subroutine body bodies found (List.mem_append_left _ member)
    by_cases same : id = last
    · subst same
      obtain rfl := Option.some.inj (foundLast.symm.trans found)
      rw [Function.update_self] at present
      obtain rfl := Option.some.inj present
      have named := wellFormed.subroutineId _ _ found
      refine step other made bodies (by rwa [named]) (by simp [named]) kept inside ?_ compiled
      exact fun _ _ _ found present => earlier found present
    · rw [Function.update_of_ne same] at present
      exact earlier found present

/-- What is kept by every compilation from the bodies before holds of all bodies. -/
theorem forall_body {motive : Subroutine → Body → Prop} (wellFormed : types.WellFormed)
    (ran : Compiles types memory library optimize done bodies)
    (step : ∀ (subroutine : Subroutine) (body : Body) (bodies : Bodies),
      types.subroutine? subroutine.id = some subroutine → subroutine.id ∈ done →
      subroutine.replacesCall = false →
      (∀ id other body, types.subroutine? id = some other → bodies id = some body →
        motive other body) →
      subroutineBody library optimize ⟨types.withBodies bodies, memory, subroutine⟩ = .ok body →
      motive subroutine body)
    {id : SubroutineId} {subroutine : Subroutine} {body : Body}
    (found : types.subroutine? id = some subroutine) (present : bodies id = some body) :
    motive subroutine body := by
  refine ran.forall_body_within wellFormed (fun _ _ present => present) ?_ found present
  intro subroutine body bodies found member kept _
  exact step subroutine body bodies found member kept

/-- Compiling more subroutines ends with all their bodies, or at the first that has none. -/
theorem foldlM_compileInto (wellFormed : types.WellFormed) {rest : List SubroutineId}
    (known : ∀ id ∈ rest, ∃ subroutine, types.subroutine? id = some subroutine)
    (distinct : (done ++ rest).Nodup) (ran : Compiles types memory library optimize done bodies) :
    (∃ after, Compiles types memory library optimize (done ++ rest) after ∧
      rest.foldlM (compileInto memory library optimize) (types.withBodies bodies) =
        .ok (types.withBodies after)) ∨
    ∃ front id back between subroutine fault, done ++ rest = front ++ id :: back ∧
      Compiles types memory library optimize front between ∧
      types.subroutine? id = some subroutine ∧ subroutine.replacesCall = false ∧
      subroutineBody library optimize ⟨types.withBodies between, memory, subroutine⟩ =
        .error fault ∧
      rest.foldlM (compileInto memory library optimize) (types.withBodies bodies) =
        .error fault := by
  induction rest generalizing done bodies with
  | nil => exact .inl ⟨bodies, by rwa [List.append_nil], rfl⟩
  | cons id rest ih =>
    obtain ⟨subroutine, found⟩ := known id List.mem_cons_self
    have fresh : id ∉ done := fun twice =>
      (List.nodup_append.mp distinct).2.2 _ twice _ List.mem_cons_self rfl
    have regroup : done ++ id :: rest = done ++ [id] ++ rest := by simp
    rw [List.foldlM_cons, compileInto_withBodies wellFormed found (ran.eq_none fresh)]
    rw [regroup] at distinct ⊢
    have others := fun other member => known other (List.mem_cons_of_mem _ member)
    cases kept : subroutine.replacesCall with
    | true => exact ih others distinct (.replaced ran found kept)
    | false =>
      cases made : subroutineBody library optimize
          ⟨types.withBodies bodies, memory, subroutine⟩ with
      | error fault =>
        exact .inr ⟨done, id, rest, bodies, subroutine, fault, regroup.symm, ran, found, kept, made,
          rfl⟩
      | ok body => exact ih others distinct (.compiled ran found kept fresh made)

end Compiles

end Cartridge.Emit

namespace Cartridge.Listing.Image

open Program (Bodies CallGraph)

/-- What an image was made from and how. -/
structure MadeFrom (image : Image) (library : Asm.Library) (optimize : Bool)
    (program : Program) (bodies : Bodies) : Prop where
  wellFormed : program.types.WellFormed
  entry : Program.findEntry program.types = .ok program.entry
  graph : CallGraph.build program.types = .ok image.graph
  memory : Memory.Map.allocate program.types image.graph image.ram = .ok image.memory
  ran : Emit.Compiles program.types image.memory library optimize image.graph.order bodies
  result : image.program = { program with types := program.types.withBodies bodies }

end Cartridge.Listing.Image

namespace Cartridge

open Emit (Compiles bind_eq_ok pure_eq_ok)
open Program (CallGraph Reachable)

theorem single_eq_ok {α : Type} {result : Except Program.Fault α} {value : α} :
    single result = .ok value ↔ result = .ok value := by
  cases result <;> simp [single]

theorem callGraph_eq_ok {types : Program.TypeTable} {graph : CallGraph} :
    callGraph types = .ok graph ↔ CallGraph.build types = .ok graph := by
  unfold callGraph
  split <;> simp_all

/-- The compilation of all that can be reached, from a table without bodies. -/
theorem compileAll_cases {types : Program.TypeTable} (wellFormed : types.WellFormed)
    {graph : CallGraph} (built : CallGraph.build types = .ok graph) (memory : Memory.Map)
    (library : Asm.Library) (optimize : Bool) :
    (∃ bodies, Compiles types memory library optimize graph.order bodies ∧
      Emit.compileAll types graph memory library optimize = .ok (types.withBodies bodies)) ∨
    ∃ front id back bodies subroutine fault, graph.order = front ++ id :: back ∧
      Compiles types memory library optimize front bodies ∧
      types.subroutine? id = some subroutine ∧ subroutine.replacesCall = false ∧
      Emit.subroutineBody library optimize ⟨types.withBodies bodies, memory, subroutine⟩ =
        .error fault ∧
      Emit.compileAll types graph memory library optimize = .error fault := by
  have known : ∀ id ∈ graph.order, ∃ subroutine, types.subroutine? id = some subroutine :=
    fun id member => ((CallGraph.mem_order built).mp member).subroutine?_isSome wellFormed
  have initial : Compiles types memory library optimize [] fun _ => none := .start
  have distinct := CallGraph.order_nodup built
  have folded := initial.foldlM_compileInto wellFormed known (by simpa using distinct)
  rwa [Program.withBodies_none wellFormed] at folded

theorem compile_eq_ok {module : Source.Module} {library : Asm.Library} {options : Options}
    {image : Listing.Image} (compiled : compile module library options = .ok image) :
    ∃ program bodies, Program.ofModule module = .ok program ∧ image.ram = options.ram ∧
      image.MadeFrom library options.optimize program bodies := by
  obtain ⟨program, resolved, next⟩ := bind_eq_ok.mp compiled
  obtain ⟨graph, built, more⟩ := bind_eq_ok.mp next
  obtain ⟨memory, allocated, further⟩ := bind_eq_ok.mp more
  obtain ⟨types, ran, made⟩ := bind_eq_ok.mp further
  rw [single_eq_ok] at resolved allocated ran
  rw [callGraph_eq_ok] at built
  obtain rfl := pure_eq_ok.mp made
  obtain ⟨wellFormed, entry⟩ := Program.ofModule_eq_ok resolved
  rcases compileAll_cases wellFormed built memory library options.optimize with
    ⟨bodies, compiles, complete⟩ | ⟨_, _, _, _, _, fault, _, _, _, _, _, failed⟩
  · obtain rfl := Except.ok.inj (complete.symm.trans ran)
    exact ⟨program, bodies, resolved, rfl, wellFormed, entry, built, allocated, compiles, rfl⟩
  · rw [failed] at ran
    contradiction

end Cartridge
