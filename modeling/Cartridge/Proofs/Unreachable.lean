import Cartridge.Proofs.Growth
import Cartridge.Proofs.Parts

/-!
A subroutine that nothing leads to has no part in what a module is compiled to.

The search for calls never comes to it, so it has no place in the call graph and none in memory, and
no instruction that is compiled names it. Everything else is the same in both tables.
-/

namespace Cartridge.Program

section Lists

variable {α β γ : Type} {related : α → β → Prop} {first : List α} {second : List β}

theorem flatMap_eq_of_forall₂ {function : α → List γ} {other : β → List γ}
    (all : List.Forall₂ related first second)
    (same : ∀ {item counterpart}, related item counterpart → function item = other counterpart) :
    first.flatMap function = second.flatMap other := by
  rw [List.flatMap_def, List.flatMap_def, map_eq_of_forall₂ all same]

end Lists

namespace SubroutineGrown

variable {extra : SubroutineId} {first second : Subroutine}

theorem id_eq (grown : SubroutineGrown extra first second) : second.id = first.id := by
  obtain ⟨⟨_, rfl⟩, -⟩ := grown
  rfl

theorem fullName_eq (grown : SubroutineGrown extra first second) :
    second.fullName = first.fullName := by
  obtain ⟨⟨_, rfl⟩, -⟩ := grown
  rfl

/-- An opcode with a meaning takes a subroutine only to call it. -/
theorem map_core_eq (grown : SubroutineGrown extra first second)
    (kinds : ∀ instruction ∈ second.instructions, instruction.opcode.isKnown = true →
      instruction.operand.kind = instruction.opcode.operandKind)
    (apart : ∀ instruction ∈ second.instructions, instruction.callee? ≠ some extra) :
    first.instructions.map Code.Instruction.core =
      second.instructions.map Code.Instruction.core := by
  have related := grown.instructions
  generalize first.instructions = written, second.instructions = rewritten at related kinds apart ⊢
  induction related with
  | nil => rfl
  | cons head _ ih =>
    have rest := ih (fun instruction member => kinds instruction (List.mem_cons_of_mem _ member))
      fun instruction member => apart instruction (List.mem_cons_of_mem _ member)
    rw [List.map_cons, List.map_cons, rest]
    congr 1
    cases head with
    | same => rfl
    | @found opcode id =>
      have kind := kinds _ List.mem_cons_self
      have uncalled := apart _ List.mem_cons_self
      cases opcode with
      | call => exact absurd rfl uncalled
      | other name => rfl
      | _ => cases kind rfl

end SubroutineGrown

theorem congruence_eq : Emit.Congruence Eq where
  refl _ := rfl
  append same rest := congrArg₂ _ same rest

/-- Two tables, of which the second has a subroutine more that nothing leads to. -/
structure Unreached (extra : SubroutineId) (small large : TypeTable) : Prop where
  grown : TableGrown extra small large
  wellFormed : small.WellFormed
  wellFormedLarge : large.WellFormed
  unreachable : ¬ Reachable large extra

namespace Unreached

variable {extra : SubroutineId} {small large : TypeTable}

theorem get? (tables : Unreached extra small large) (id : TypeId) :
    Option.Rel (TypeGrown extra) (small.get? id) (large.get? id) :=
  rel_getElem? tables.grown id

theorem field?_eq (tables : Unreached extra small large) (id : FieldId) :
    large.field? id = small.field? id := by
  have related := tables.get? id.owner
  simp only [TypeTable.field?, Option.bind_eq_bind]
  revert related
  generalize small.get? id.owner = first, large.get? id.owner = second
  rintro (⟨⟨_, rfl⟩, -⟩ | -)
  · rfl
  · rfl

theorem fieldRequests_eq (tables : Unreached extra small large) :
    Memory.fieldRequests large = Memory.fieldRequests small := by
  refine (flatMap_eq_of_forall₂ tables.grown ?_).symm
  rintro first second ⟨⟨_, rfl⟩, -⟩
  rfl

theorem subroutine? (tables : Unreached extra small large) {id : SubroutineId}
    (apart : id ≠ extra) :
    Option.Rel (SubroutineGrown extra) (small.subroutine? id) (large.subroutine? id) := by
  have related := tables.get? id.owner
  have placed := tables.wellFormed.typeId id.owner
  simp only [TypeTable.subroutine?, Option.bind_eq_bind]
  revert related placed
  generalize small.get? id.owner = first, large.get? id.owner = second
  rintro (⟨-, others | ⟨here, length, kept, last, same, -, related⟩⟩ | -) placed
  · exact rel_getElem? others.2 id.index
  · -- The new one is the last, so it is at no other index of its type.
    have owner : id.owner = extra.owner := (placed _ rfl).symm.trans here
    have index : id.index ≠ extra.index := fun same => apart (by cases id; cases extra; simp_all)
    simp only [Option.bind_some, same, List.getElem?_append]
    have lengths := related.length_eq
    split
    next => exact rel_getElem? related id.index
    next beyond =>
      have past : kept.length < id.index := by omega
      rw [List.getElem?_eq_none (by omega), List.getElem?_eq_none (by simp; omega)]
      exact .none
  · exact .none

/-- Of the subroutines, all but the new one are the same. -/
theorem subroutines (tables : Unreached extra small large) :
    List.Forall₂ (SubroutineGrown extra) small.subroutines
      (large.subroutines.filter fun subroutine => subroutine.id != extra) := by
  have named : ∀ type ∈ small.types, ∀ (index : Nat) subroutine,
      type.subroutines[index]? = some subroutine → subroutine.id = ⟨type.id, index⟩ := by
    intro type member index subroutine found
    obtain ⟨id, foundType⟩ := List.getElem?_of_mem member
    rw [tables.wellFormed.typeId id type foundType]
    exact tables.wellFormed.id_of_getElem? foundType found
  have both := (List.forall₂_and_left _ _).mpr ⟨named, tables.grown⟩
  rw [TypeTable.subroutines, TypeTable.subroutines, List.filter_flatMap]
  refine List.rel_flatMap both ?_
  rintro first second ⟨ids, grown⟩
  -- The ids of the subroutines that were there are not the new one.
  have elsewhere : ∀ {kept : List Subroutine},
      List.Forall₂ (SubroutineGrown extra) first.subroutines kept →
      (∀ index < first.subroutines.length, (⟨first.id, index⟩ : SubroutineId) ≠ extra) →
      kept.filter (fun subroutine => subroutine.id != extra) = kept := by
    intro kept related apart
    rw [List.filter_eq_self]
    intro subroutine member
    obtain ⟨index, found⟩ := List.getElem?_of_mem member
    have alike := rel_getElem? related index
    rw [found] at alike
    cases origin : first.subroutines[index]? with
    | none => simp [origin] at alike
    | some present =>
      rw [origin, Option.rel_some_some] at alike
      rw [bne_iff_ne, alike.id_eq, ids index present origin]
      exact apart index (List.getElem?_eq_some_iff.mp origin).1
  dsimp only
  rcases grown.subroutines with ⟨apart, related⟩ | ⟨here, length, kept, last, same, named, related⟩
  · rw [elsewhere related fun index _ same => apart (by rw [← same])]
    exact related
  · rw [same, List.filter_append, elsewhere related, List.filter_singleton, named]
    · simpa using related
    · rintro index bound rfl
      exact absurd length (Nat.ne_of_gt bound)

/-- A selection that leaves the new subroutine out is the same. -/
theorem filter_subroutines (tables : Unreached extra small large) {keep : Subroutine → Bool}
    (congr : ∀ {first second}, SubroutineGrown extra first second → keep first = keep second)
    (leaves : ∀ subroutine ∈ large.subroutines, subroutine.id = extra → keep subroutine = false) :
    List.Forall₂ (SubroutineGrown extra) (small.subroutines.filter keep)
      (large.subroutines.filter keep) := by
  have same : large.subroutines.filter keep =
      (large.subroutines.filter fun subroutine => subroutine.id != extra).filter keep := by
    rw [List.filter_filter]
    apply List.filter_congr
    intro subroutine member
    by_cases isExtra : subroutine.id = extra
    · simp [leaves subroutine member isExtra]
    · simp [isExtra]
  rw [same]
  refine List.rel_filter ?_ tables.subroutines
  intro first second grown
  exact iff_of_eq (congrArg (· = true) (congr grown))

theorem ne_of_reachable (tables : Unreached extra small large) {id : SubroutineId}
    (reachable : Reachable large id) : id ≠ extra := by
  rintro rfl
  exact tables.unreachable reachable

/-- What is reached and executed does not call the new subroutine. -/
theorem map_core_eq (tables : Unreached extra small large) {id : SubroutineId}
    (reachable : Reachable large id) {first second : Subroutine}
    (grown : SubroutineGrown extra first second) (found : large.subroutine? id = some second)
    (walked : second.walksBody = true) :
    first.instructions.map Code.Instruction.core =
      second.instructions.map Code.Instruction.core := by
  apply grown.map_core_eq
  · intro instruction member
    exact (tables.wellFormedLarge.sound id second found instruction member).kind
  · intro instruction member calls
    obtain ⟨opcode, operand⟩ := CallGraph.callee?_eq_some.mp calls
    exact tables.unreachable (reachable.callee ⟨second, found,
      CallGraph.walksBody_eq_true.mp walked, instruction, member, opcode, operand⟩)

theorem calleesOf_eq (tables : Unreached extra small large) {id : SubroutineId}
    (reachable : Reachable large id) :
    CallGraph.calleesOf large id = CallGraph.calleesOf small id := by
  have callees : ∀ body : List Code.Instruction,
      (body.map Code.Instruction.core).filterMap Code.Instruction.callee? =
        body.filterMap Code.Instruction.callee? := by
    intro body
    rw [List.filterMap_map]
    congr 1
    funext instruction
    exact instruction.callee?_core
  have related := tables.subroutine? (tables.ne_of_reachable reachable)
  have cores : ∀ {first second}, SubroutineGrown extra first second →
      large.subroutine? id = some second → second.walksBody = true →
      first.instructions.map Code.Instruction.core =
        second.instructions.map Code.Instruction.core :=
    fun grown found walked => tables.map_core_eq reachable grown found walked
  unfold CallGraph.calleesOf
  revert related cores
  generalize small.subroutine? id = first, large.subroutine? id = second
  rintro (@⟨first, second, grown⟩ | -) cores
  · have walks : second.walksBody = first.walksBody := by
      obtain ⟨⟨_, rfl⟩, -⟩ := grown
      rfl
    dsimp only
    rw [walks]
    split
    next walked =>
      rw [← callees, ← cores grown rfl (walks.trans walked), callees]
    next => rfl
  · rfl

end Unreached

namespace CallGraph.Walk

section Tables

variable {types other : TypeTable}
  (same : ∀ id, Reachable types id → calleesOf types id = calleesOf other id)

include same

/-- The search only asks for what is called by subroutines that it was led to. -/
theorem Invariant.step?_congr {walk : Walk} (invariant : Invariant types walk) :
    walk.step? types = walk.step? other := by
  have reachable := invariant.reachable
  have way := invariant.path
  unfold Walk.step?
  split
  next => rfl
  next id outer path =>
    rw [nodeOf, nodeOf, same id (reachable id (by simp [path]))]
  next id callee pending outer path =>
    rw [path] at way
    have reached : Reachable types callee := (reachable id (by simp [path])).callee way.calls
    simp only [Walk.follow, Walk.enter, same callee reached]

theorem Invariant.run_congr {walk : Walk} (invariant : Invariant types walk) :
    walk.run types = walk.run other := by
  fun_induction Walk.run types walk with
  | case1 walk next stepped ih =>
    rw [ih (invariant.step? stepped), run.eq_def other walk]
    rw [invariant.step?_congr same] at stepped
    split
    next found => rw [Option.some.inj (stepped.symm.trans found)]
    next found => exact absurd (stepped.symm.trans found) (by simp)
  | case2 walk stopped =>
    rw [invariant.step?_congr same] at stopped
    rw [run.eq_def]
    split
    next found => exact absurd (stopped.symm.trans found) (by simp)
    next => rfl

theorem Invariant.visit_congr {walk : Walk} (invariant : Invariant types walk)
    (ended : walk.path = []) {root : SubroutineId} (isRoot : IsRoot types root) :
    walk.visit types root = walk.visit other root := by
  have entered : walk.enter types root = walk.enter other root := by
    rw [Walk.enter, Walk.enter, same root isRoot.reachable]
  unfold visit
  split
  next => rfl
  next unfinished =>
    have kept := invariant.enter ended isRoot (mt isFinished_iff.mpr unfinished)
    rw [kept.run_congr same, entered]

theorem Invariant.visits_congr {roots : List SubroutineId} {walk : Walk}
    (invariant : Invariant types walk) (ended : walk.path = [])
    (areRoots : ∀ root ∈ roots, IsRoot types root) :
    roots.foldl (visit types) walk = roots.foldl (visit other) walk := by
  induction roots generalizing walk with
  | nil => rfl
  | cons root roots ih =>
    have isRoot := areRoots root List.mem_cons_self
    obtain ⟨kept, stopped, -⟩ := visit_spec invariant ended isRoot
    rw [List.foldl_cons, List.foldl_cons, ← invariant.visit_congr same ended isRoot]
    exact ih kept stopped fun root member => areRoots root (List.mem_cons_of_mem _ member)

end Tables

end CallGraph.Walk

namespace Unreached

variable {extra : SubroutineId} {small large : TypeTable}

theorem filter_flagged (tables : Unreached extra small large) {flag : Subroutine → Bool}
    (congr : ∀ {first second}, SubroutineGrown extra first second → flag first = flag second)
    (flagged : ∀ subroutine, flag subroutine = true →
      subroutine.isEntry = true ∨ subroutine.isRoot = true) :
    List.Forall₂ (SubroutineGrown extra) (small.subroutines.filter flag)
      (large.subroutines.filter flag) := by
  apply tables.filter_subroutines congr
  intro subroutine member named
  rw [Bool.eq_false_iff]
  intro marked
  exact tables.unreachable
    (IsRoot.reachable ⟨subroutine, member, flagged subroutine marked, named⟩)

theorem filter_isEntry (tables : Unreached extra small large) :
    List.Forall₂ (SubroutineGrown extra) (small.subroutines.filter (·.isEntry))
      (large.subroutines.filter (·.isEntry)) := by
  apply tables.filter_flagged
  · rintro first second ⟨⟨_, rfl⟩, -⟩
    rfl
  · exact fun _ => .inl

theorem findEntry_eq (tables : Unreached extra small large) :
    findEntry large = findEntry small := by
  have entries := tables.filter_isEntry
  have names := map_eq_of_forall₂ entries fun grown => grown.fullName_eq.symm
  unfold findEntry
  revert entries names
  generalize small.subroutines.filter (·.isEntry) = first,
    large.subroutines.filter (·.isEntry) = second
  rintro (- | @⟨_, _, _, _, grown, (- | _)⟩) names
  · rfl
  · exact congrArg _ grown.id_eq
  · exact congrArg (Except.error ∘ Fault.multipleEntryPoints) names.symm

theorem roots_eq (tables : Unreached extra small large) :
    CallGraph.roots large = CallGraph.roots small := by
  have others : List.Forall₂ (SubroutineGrown extra)
      (small.subroutines.filter fun subroutine => subroutine.isRoot && !subroutine.isEntry)
      (large.subroutines.filter fun subroutine => subroutine.isRoot && !subroutine.isEntry) := by
    apply tables.filter_flagged
    · rintro first second ⟨⟨_, rfl⟩, -⟩
      rfl
    · exact fun _ flagged => .inr (Bool.and_eq_true_iff.mp flagged).1
  refine (map_eq_of_forall₂ (List.rel_append tables.filter_isEntry others) ?_).symm
  exact fun grown => grown.id_eq.symm

theorem search_eq (tables : Unreached extra small large) :
    CallGraph.search large = CallGraph.search small := by
  have initial : CallGraph.Walk.Invariant large {} :=
    ⟨trivial, by simp, by simp, by simp, by simp, by simp⟩
  rw [CallGraph.search, CallGraph.search, ← tables.roots_eq]
  refine initial.visits_congr (fun id reachable => tables.calleesOf_eq reachable) rfl ?_
  exact fun root member => CallGraph.Walk.mem_roots.mp member

theorem build_eq (tables : Unreached extra small large) :
    CallGraph.build large = CallGraph.build small := by
  rw [CallGraph.build, CallGraph.build, tables.search_eq]

theorem fullName_eq (tables : Unreached extra small large) {id : SubroutineId}
    (reachable : Reachable large id) : large.fullName id = small.fullName id := by
  have related := tables.subroutine? (tables.ne_of_reachable reachable)
  unfold TypeTable.fullName
  revert related
  generalize small.subroutine? id = first, large.subroutine? id = second
  rintro (grown | -)
  · exact grown.fullName_eq
  · rfl

theorem fault_eq (tables : Unreached extra small large) {cycle : CallCycle}
    (genuine : cycle.Genuine large) : cycle.fault large = cycle.fault small := by
  have reached : ∀ id ∈ cycle.path, Reachable large id := by
    apply genuine.chain.induction
    · exact fun _ _ calls reachable => reachable.callee calls
    · exact fun _ => genuine.reachable
  rw [CallCycle.fault, CallCycle.fault, tables.fullName_eq genuine.reachable,
    List.map_congr_left fun id member => tables.fullName_eq (reached id member)]

theorem callGraph_eq (tables : Unreached extra small large) :
    callGraph large = callGraph small := by
  unfold callGraph
  rw [← tables.build_eq]
  cases built : CallGraph.build large with
  | ok graph => rfl
  | error cycles =>
    obtain ⟨rfl, -⟩ := CallGraph.build_eq_error.mp built
    have genuine := (CallGraph.Walk.search_complete large).invariant.genuine
    dsimp only
    rw [List.map_congr_left fun cycle member => tables.fault_eq (genuine cycle member)]

theorem contains_eq_false (tables : Unreached extra small large) {graph : CallGraph}
    (built : CallGraph.build large = .ok graph) : graph.contains extra = false := by
  rw [Bool.eq_false_iff, Ne, CallGraph.contains_iff, CallGraph.mem_order built]
  exact tables.unreachable

theorem allocate_eq (tables : Unreached extra small large) {graph : CallGraph}
    (built : CallGraph.build large = .ok graph) (ram : Memory.Ram) :
    Memory.Map.allocate large graph ram = Memory.Map.allocate small graph ram := by
  have slots : List.Forall₂ (SubroutineGrown extra)
      (small.subroutines.filter (Memory.hasSlots graph))
      (large.subroutines.filter (Memory.hasSlots graph)) := by
    apply tables.filter_subroutines
    · rintro first second ⟨⟨_, rfl⟩, -⟩
      rfl
    · intro subroutine _ named
      rw [Memory.hasSlots, named, tables.contains_eq_false built, Bool.and_false]
  have requested : Memory.requests large graph = Memory.requests small graph := by
    rw [Memory.requests, Memory.requests, tables.fieldRequests_eq]
    congr 1
    refine (flatMap_eq_of_forall₂ slots ?_).symm
    rintro first second ⟨⟨_, rfl⟩, -⟩
    rfl
  rw [Memory.Map.allocate, Memory.Map.allocate, requested]

theorem interchangeable (tables : Unreached extra small large) (bodies : Bodies)
    {id : SubroutineId} (reachable : Reachable large id) {first second : Subroutine}
    (grown : SubroutineGrown extra first second) (found : large.subroutine? id = some second)
    (walked : second.walksBody = true) :
    Emit.Interchangeable Eq (small.withBodies bodies) (large.withBodies bodies) first
      second.instructions := by
  have written := tables.map_core_eq reachable grown found walked
  refine ⟨written, ?_, ?_⟩
  · intro instruction _ field _
    rw [field?_withBodies, field?_withBodies, tables.field?_eq]
  · intro instruction member callee calls
    have copy : instruction.core ∈ second.instructions.map Code.Instruction.core := by
      rw [← written]
      exact List.mem_map_of_mem member
    obtain ⟨counterpart, inside, same⟩ := List.mem_map.mp copy
    rw [← instruction.callee?_core, ← same, counterpart.callee?_core] at calls
    obtain ⟨opcode, operand⟩ := CallGraph.callee?_eq_some.mp calls
    have reached : Reachable large callee := reachable.callee ⟨second, found,
      CallGraph.walksBody_eq_true.mp walked, counterpart, inside, opcode, operand⟩
    have related := tables.subroutine? (tables.ne_of_reachable reached)
    rw [subroutine?_withBodies, subroutine?_withBodies]
    revert related
    generalize small.subroutine? callee = first, large.subroutine? callee = second
    rintro (@⟨first, second, ⟨_, rfl⟩, -⟩ | -)
    · refine .some ⟨⟨first.instructions, bodies first.id, rfl⟩, ?_⟩
      intro _ place
      rw [Subroutine.body?_withBody, Subroutine.body?_withBody]
      cases bodies first.id with
      | none => exact .none
      | some body => exact .some ⟨rfl, rfl⟩
    · exact .none

theorem subroutineBody_eq (tables : Unreached extra small large) (memory : Memory.Map)
    (library : Asm.Library) (optimize : Bool) (bodies : Bodies) {id : SubroutineId}
    (reachable : Reachable large id) {first second : Subroutine}
    (grown : SubroutineGrown extra first second) (found : large.subroutine? id = some second)
    (kept : second.replacesCall = false) :
    Emit.subroutineBody library optimize ⟨large.withBodies bodies, memory, second⟩ =
      Emit.subroutineBody library optimize ⟨small.withBodies bodies, memory, first⟩ := by
  obtain ⟨instructions, rfl⟩ := grown.same
  have compiled : first.walksBody = true →
      Emit.Site.compile ⟨large.withBodies bodies, memory, { first with instructions }⟩ =
        Emit.Site.compile ⟨small.withBodies bodies, memory, first⟩ := by
    intro walked
    have agree : Emit.SameOutcome (Emit.BodyAlike Eq)
        (Emit.Site.compile ⟨small.withBodies bodies, memory, first⟩)
        (Emit.Site.compile ⟨large.withBodies bodies, memory, { first with instructions }⟩) :=
      Emit.compile_agree congruence_eq (tables.interchangeable bodies reachable grown found walked)
    revert agree
    generalize Emit.Site.compile ⟨small.withBodies bodies, memory, first⟩ = made,
      Emit.Site.compile ⟨large.withBodies bodies, memory, { first with instructions }⟩ = remade
    rintro (_ | @⟨body, other, code, data⟩)
    · rfl
    · exact congrArg _ (congrArg₂ Body.mk code data).symm
  unfold Emit.subroutineBody
  dsimp only
  split
  next => rfl
  next => rfl
  next provided filled =>
    rw [compiled (Emit.walksBody_of_kept kept provided filled)]

theorem compileInto_agree (tables : Unreached extra small large) (memory : Memory.Map)
    (library : Asm.Library) (optimize : Bool) {bodies : Bodies} {id : SubroutineId}
    (reachable : Reachable large id) (fresh : bodies id = none) :
    Emit.SameOutcome
      (fun first second => ∃ after, first = small.withBodies after ∧
        second = large.withBodies after ∧ ∀ other, other ≠ id → after other = bodies other)
      (Emit.compileInto memory library optimize (small.withBodies bodies) id)
      (Emit.compileInto memory library optimize (large.withBodies bodies) id) := by
  have related := tables.subroutine? (tables.ne_of_reachable reachable)
  obtain ⟨second, foundLarge⟩ := reachable.subroutine?_isSome tables.wellFormedLarge
  cases found : small.subroutine? id with
  | none => simp [found, foundLarge] at related
  | some first =>
    rw [found, foundLarge, Option.rel_some_some] at related
    have replaces : second.replacesCall = first.replacesCall := by
      obtain ⟨⟨_, rfl⟩, -⟩ := related
      rfl
    rw [Emit.compileInto_withBodies tables.wellFormed found fresh,
      Emit.compileInto_withBodies tables.wellFormedLarge foundLarge fresh, replaces]
    cases kept : first.replacesCall with
    | true => exact .ok ⟨bodies, rfl, rfl, fun _ _ => rfl⟩
    | false =>
      simp only [Bool.false_eq_true, if_false]
      rw [tables.subroutineBody_eq memory library optimize bodies reachable related foundLarge
        (replaces.trans kept)]
      apply Emit.SameOutcome.bind_self
      intro body
      refine .ok ⟨_, rfl, rfl, ?_⟩
      exact fun other apart => Function.update_of_ne apart _ _

theorem foldlM_compileInto_agree (tables : Unreached extra small large) (memory : Memory.Map)
    (library : Asm.Library) (optimize : Bool) {ids : List SubroutineId}
    (reachable : ∀ id ∈ ids, Reachable large id) (distinct : ids.Nodup) {bodies : Bodies}
    (fresh : ∀ id ∈ ids, bodies id = none) :
    Emit.SameOutcome
      (fun first second => ∃ after, first = small.withBodies after ∧
        second = large.withBodies after)
      (ids.foldlM (Emit.compileInto memory library optimize) (small.withBodies bodies))
      (ids.foldlM (Emit.compileInto memory library optimize) (large.withBodies bodies)) := by
  induction ids generalizing bodies with
  | nil => exact .ok ⟨bodies, rfl, rfl⟩
  | cons id ids ih =>
    obtain ⟨once, rest⟩ := List.nodup_cons.mp distinct
    have step := tables.compileInto_agree memory library optimize (reachable id List.mem_cons_self)
      (fresh id List.mem_cons_self)
    rw [List.foldlM_cons, List.foldlM_cons]
    apply step.bind
    rintro _ _ ⟨after, rfl, rfl, others⟩
    refine ih (fun other member => reachable other (List.mem_cons_of_mem _ member)) rest ?_
    intro other member
    rw [others other fun same => once (same ▸ member)]
    exact fresh other (List.mem_cons_of_mem _ member)

/-- Both tables get the same bodies, or neither gets all. -/
theorem compileAll_agree (tables : Unreached extra small large) {graph : CallGraph}
    (built : CallGraph.build large = .ok graph) (memory : Memory.Map) (library : Asm.Library)
    (optimize : Bool) :
    Emit.SameOutcome
      (fun first second => ∃ bodies, first = small.withBodies bodies ∧
        second = large.withBodies bodies)
      (Emit.compileAll small graph memory library optimize)
      (Emit.compileAll large graph memory library optimize) := by
  have agree := tables.foldlM_compileInto_agree memory library optimize
    (fun id member => (CallGraph.mem_order built).mp member) (CallGraph.order_nodup built)
    (fun _ _ => rfl : ∀ id ∈ graph.order, (fun _ => none : Bodies) id = none)
  rwa [withBodies_none tables.wellFormed, withBodies_none tables.wellFormedLarge] at agree

end Unreached

end Cartridge.Program

namespace Cartridge.Program.Unreached

open Listing

variable {extra : SubroutineId} {small large : TypeTable} {entry : SubroutineId}
  {graph : CallGraph} {memory : Memory.Map} {ram : Memory.Ram} {bodies : Bodies}

theorem emitted_related (tables : Unreached extra small large)
    (built : CallGraph.build large = .ok graph) :
    List.Forall₂ (SubroutineGrown extra)
      (Image.emitted ⟨⟨small.withBodies bodies, entry⟩, graph, memory, ram⟩)
      (Image.emitted ⟨⟨large.withBodies bodies, entry⟩, graph, memory, ram⟩) := by
  simp only [Image.emitted, subroutines_withBodies, List.filter_map, List.forall₂_map_left_iff,
    List.forall₂_map_right_iff]
  refine (tables.filter_subroutines ?_ ?_).imp ?_
  · rintro first second ⟨⟨_, rfl⟩, -⟩
    rfl
  · intro subroutine _ named
    rw [Function.comp_apply, Image.emits, Subroutine.id_withBody, named,
      tables.contains_eq_false built, Bool.false_and, Bool.false_and]
  · rintro first second ⟨⟨instructions, rfl⟩, related⟩
    exact ⟨⟨instructions, rfl⟩, related⟩

theorem entryLines_eq (tables : Unreached extra small large) (reachable : Reachable large entry) :
    entryLines ⟨⟨large.withBodies bodies, entry⟩, graph, memory, ram⟩ =
      entryLines ⟨⟨small.withBodies bodies, entry⟩, graph, memory, ram⟩ := by
  have related := tables.subroutine? (tables.ne_of_reachable reachable)
  simp only [entryLines, subroutine?_withBodies]
  revert related
  generalize small.subroutine? entry = first, large.subroutine? entry = second
  rintro (⟨⟨_, rfl⟩, -⟩ | -)
  · rfl
  · rfl

theorem lines_eq (tables : Unreached extra small large) (built : CallGraph.build large = .ok graph)
    (reachable : Reachable large entry) :
    Image.lines ⟨⟨large.withBodies bodies, entry⟩, graph, memory, ram⟩ =
      Image.lines ⟨⟨small.withBodies bodies, entry⟩, graph, memory, ram⟩ := by
  have emitted : List.Forall₂ (SubroutineGrown extra)
      (Image.emitted ⟨⟨small.withBodies bodies, entry⟩, graph, memory, ram⟩)
      (Image.emitted ⟨⟨large.withBodies bodies, entry⟩, graph, memory, ram⟩) :=
    tables.emitted_related built
  have others := List.rel_filter (fun first second (grown : SubroutineGrown extra first second) =>
    iff_of_eq (congrArg (fun id => (id != entry) = true) grown.id_eq.symm)) emitted
  have listed := flatMap_eq_of_forall₂ others fun {first second} grown => by
    show subroutineLines first = subroutineLines second
    obtain ⟨⟨_, rfl⟩, -⟩ := grown
    rfl
  simp only [Image.lines, tables.entryLines_eq reachable, listed]

theorem names_eq (tables : Unreached extra small large)
    (built : CallGraph.build large = .ok graph) :
    (Image.emitted ⟨⟨large.withBodies bodies, entry⟩, graph, memory, ram⟩).map (·.fullName) =
      (Image.emitted ⟨⟨small.withBodies bodies, entry⟩, graph, memory, ram⟩).map (·.fullName) := by
  refine (map_eq_of_forall₂ (tables.emitted_related built) ?_).symm
  exact fun grown => grown.fullName_eq.symm

end Cartridge.Program.Unreached

namespace Cartridge

open Program (CallGraph Reachable Unreached)

theorem unreached_of_ofModule {before after : List Source.TypeDecl} {decl : Source.TypeDecl}
    {added : Source.Subroutine} {small large : Program}
    (resolved : Program.ofModule ⟨before ++ decl :: after⟩ = .ok small)
    (resolvedLarge : Program.ofModule ⟨before ++ decl.declare added :: after⟩ = .ok large)
    (unreachable : ¬ Reachable large.types
      ⟨Primitive.all.length + before.length, decl.subroutines.length⟩) :
    Unreached ⟨Primitive.all.length + before.length, decl.subroutines.length⟩
      small.types large.types := by
  have grown := Program.grown_originsOf before after decl added
  obtain ⟨wellFormed, -⟩ := Program.ofModule_eq_ok resolved
  obtain ⟨wellFormedLarge, -⟩ := Program.ofModule_eq_ok resolvedLarge
  refine ⟨?_, wellFormed, wellFormedLarge, unreachable⟩
  obtain ⟨⟨values, known, mapped, built⟩, -⟩ := Program.table_of_ofModule resolved
  obtain ⟨⟨others, learnt, mappedLarge, builtLarge⟩, -⟩ := Program.table_of_ofModule resolvedLarge
  rw [grown.length_eq, ← Program.mapM_eq_of_forall₂ grown fun alike =>
    (grown.resolveType_eq _ _ alike).symm, mapped] at mappedLarge
  obtain ⟨rfl, -⟩ := Prod.mk.inj (Except.ok.inj mappedLarge)
  exact Program.tableGrown_of_buildTable grown built builtLarge

theorem compile_of_ofModule {module : Source.Module} {program : Program}
    (resolved : Program.ofModule module = .ok program) (library : Asm.Library) (options : Options) :
    compile module library options = do
      let graph ← callGraph program.types
      let memory ← single (Memory.Map.allocate program.types graph options.ram)
      let types ← single (Emit.compileAll program.types graph memory library options.optimize)
      return { program := { program with types }, graph, memory, ram := options.ram } := by
  rw [compile, resolved]
  rfl

/-- A subroutine that no root leads to changes nothing of what a module is compiled to, or of the
faults that are found in it. -/
theorem compile_declare {before after : List Source.TypeDecl} {decl : Source.TypeDecl}
    {added : Source.Subroutine} {small large : Program}
    (resolved : Program.ofModule ⟨before ++ decl :: after⟩ = .ok small)
    (resolvedLarge : Program.ofModule ⟨before ++ decl.declare added :: after⟩ = .ok large)
    (unreachable : ¬ Reachable large.types
      ⟨Primitive.all.length + before.length, decl.subroutines.length⟩)
    (library : Asm.Library) (options : Options) :
    (compile ⟨before ++ decl.declare added :: after⟩ library options).map
        (fun image => (image.lines, image.emitted.map (·.fullName))) =
      (compile ⟨before ++ decl :: after⟩ library options).map
        (fun image => (image.lines, image.emitted.map (·.fullName))) := by
  have tables := unreached_of_ofModule resolved resolvedLarge unreachable
  obtain ⟨-, entry⟩ := Program.ofModule_eq_ok resolved
  obtain ⟨wellFormed, entryLarge⟩ := Program.ofModule_eq_ok resolvedLarge
  have sameEntry : large.entry = small.entry := by
    rw [tables.findEntry_eq, entry] at entryLarge
    exact (Except.ok.inj entryLarge).symm
  have reachable : Reachable large.types small.entry := by
    obtain ⟨subroutine, found, marked⟩ := Program.entry_of_findEntry wellFormed entryLarge
    rw [← sameEntry]
    exact Program.IsRoot.reachable ⟨subroutine, Program.mem_subroutines.mpr ⟨_, found⟩, .inl marked,
      wellFormed.subroutineId _ _ found⟩
  rw [compile_of_ofModule resolved, compile_of_ofModule resolvedLarge, tables.callGraph_eq]
  cases graphed : callGraph small.types with
  | error faults => rfl
  | ok graph =>
    have built : CallGraph.build large.types = .ok graph := by
      rwa [tables.build_eq, ← callGraph_eq_ok]
    simp only [bind, Except.bind, tables.allocate_eq built]
    cases Memory.Map.allocate small.types graph options.ram with
    | error fault => rfl
    | ok memory =>
      have agree := tables.compileAll_agree built memory library options.optimize
      simp only [single]
      revert agree
      generalize Emit.compileAll small.types graph memory library options.optimize = made,
        Emit.compileAll large.types graph memory library options.optimize = remade
      rintro (fault | @⟨_, _, bodies, rfl, rfl⟩)
      · rfl
      · simp only [sameEntry, pure, Except.pure, Except.map, tables.lines_eq built reachable,
          tables.names_eq built]

def unit : Source.TypeDecl :=
  { name := "Unit", subroutines := [{ name := "Tick", instructions := [⟨"ret", none⟩] }] }

/-- A type that calls a subroutine of its base, also by its own name. -/
def patrol : Source.TypeDecl :=
  { name := "Patrol", base? := some "Unit", counts? := some ⟨0, 2⟩
    subroutines :=
      [{ name := "Main", isEntry := true
         instructions := [⟨"call", some (.method ⟨"Unit", "Tick"⟩)⟩, ⟨"ret", none⟩] },
       { name := "Idle"
         instructions := [⟨"call", some (.method ⟨"Patrol", "Tick"⟩)⟩, ⟨"ret", none⟩] }] }

/-- A subroutine that calls itself, as do those now that found the one of the base before. -/
def tick : Source.Subroutine :=
  { name := "Tick", instructions := [⟨"call", some (.method ⟨"Patrol", "Tick"⟩)⟩, ⟨"ret", none⟩] }

theorem compile_declare_patrol :
    ∃ small large image, Program.ofModule ⟨[unit, patrol]⟩ = .ok small ∧
      Program.ofModule ⟨[unit, patrol.declare tick]⟩ = .ok large ∧
      ¬ Reachable large.types ⟨Primitive.all.length + 1, 2⟩ ∧
      CallGraph.calleesOf large.types ⟨Primitive.all.length + 1, 1⟩ ≠
        CallGraph.calleesOf small.types ⟨Primitive.all.length + 1, 1⟩ ∧
      compile ⟨[unit, patrol]⟩ {} {} = .ok image ∧
      (compile ⟨[unit, patrol.declare tick]⟩ {} {}).map
        (fun image => (image.lines, image.emitted.map (·.fullName))) =
          .ok (image.lines, image.emitted.map (·.fullName)) := by
  have passed : (Program.ofModule ⟨[unit, patrol]⟩).toOption.any (fun small =>
      (Program.ofModule ⟨[unit, patrol.declare tick]⟩).toOption.any fun large =>
      (CallGraph.build large.types).toOption.any fun graph =>
      !graph.order.contains ⟨Primitive.all.length + 1, 2⟩ &&
      CallGraph.calleesOf large.types ⟨Primitive.all.length + 1, 1⟩ !=
        CallGraph.calleesOf small.types ⟨Primitive.all.length + 1, 1⟩) = true := by
    decide +kernel
  have succeeds : (compile ⟨[unit, patrol]⟩ {} {}).toOption.any (fun _ => true) = true := by
    decide +kernel
  obtain ⟨small, resolved, more⟩ := exists_of_any passed
  obtain ⟨large, resolvedLarge, more⟩ := exists_of_any more
  obtain ⟨graph, built, more⟩ := exists_of_any more
  obtain ⟨absent, differs⟩ := Bool.and_eq_true_iff.mp more
  obtain ⟨image, compiled, -⟩ := exists_of_any succeeds
  have unreachable : ¬ Reachable large.types ⟨Primitive.all.length + 1, 2⟩ := by
    rw [← CallGraph.mem_order built]
    simpa using absent
  have same := @compile_declare [unit] [] patrol tick small large resolved resolvedLarge
    unreachable {} {}
  have alone : compile ⟨[unit] ++ patrol :: []⟩ {} {} = .ok image := compiled
  rw [alone] at same
  exact ⟨small, large, image, resolved, resolvedLarge, unreachable, bne_iff_ne.mp differs, compiled,
    same⟩

end Cartridge
