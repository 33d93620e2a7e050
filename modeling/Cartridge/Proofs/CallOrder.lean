import Cartridge.Compile
import Mathlib.Data.List.Chain
import Mathlib.Logic.Relation

/-!
The call graph against the calls that a program can make.

The search is described by what holds between any two of its steps. Every call of a finished
subroutine either leads to one that was finished before or closes a reported cycle, and the
subroutines on the path call one another. Once the path is empty, the former orders callees before
callers, and a cycle of calls can only exist through a call that was reported.
-/

namespace Cartridge.Program

/-- A call in the body of a subroutine whose instructions are executed. -/
def Calls (types : TypeTable) (caller callee : SubroutineId) : Prop :=
  ∃ subroutine, types.subroutine? caller = some subroutine ∧
    (subroutine.intrinsic? = none ∨ subroutine.intrinsic? = some .alwaysInline) ∧
    ∃ instruction ∈ subroutine.instructions,
      instruction.opcode = .call ∧ instruction.operand = .method callee

def IsRoot (types : TypeTable) (id : SubroutineId) : Prop :=
  ∃ subroutine ∈ types.subroutines,
    (subroutine.isEntry = true ∨ subroutine.isRoot = true) ∧ subroutine.id = id

def Reachable (types : TypeTable) (id : SubroutineId) : Prop :=
  ∃ root, IsRoot types root ∧ Relation.ReflTransGen (Calls types) root id

theorem IsRoot.reachable {types : TypeTable} {id : SubroutineId} (root : IsRoot types id) :
    Reachable types id :=
  ⟨id, root, .refl⟩

theorem Reachable.callee {types : TypeTable} {caller callee : SubroutineId}
    (reachable : Reachable types caller) (calls : Calls types caller callee) :
    Reachable types callee := by
  obtain ⟨root, isRoot, path⟩ := reachable
  exact ⟨root, isRoot, path.tail calls⟩

/-- The subroutine whose call leads back to the start of a cycle. -/
def CallCycle.closer (cycle : CallCycle) : SubroutineId :=
  cycle.rest.getLastD cycle.start

/-- A cycle of calls that passes through each of its subroutines once. -/
structure CallCycle.Genuine (types : TypeTable) (cycle : CallCycle) : Prop where
  chain : cycle.path.IsChain (Calls types)
  simple : (cycle.start :: cycle.rest).Nodup
  reachable : Reachable types cycle.start

namespace CallGraph

theorem callee?_eq_some {instruction : Code.Instruction} {id : SubroutineId} :
    instruction.callee? = some id ↔
      instruction.opcode = .call ∧ instruction.operand = .method id := by
  obtain ⟨opcode, operand⟩ := instruction
  unfold Code.Instruction.callee?
  split <;> simp_all

theorem walksBody_eq_true {subroutine : Subroutine} :
    subroutine.walksBody = true ↔
      subroutine.intrinsic? = none ∨ subroutine.intrinsic? = some .alwaysInline := by
  unfold Subroutine.walksBody
  split <;> simp_all

theorem mem_calleesOf {types : TypeTable} {caller callee : SubroutineId} :
    callee ∈ calleesOf types caller ↔ Calls types caller callee := by
  unfold calleesOf Calls
  split
  next subroutine found =>
    split
    next walks =>
      have executed := walksBody_eq_true.mp walks
      simp only [List.mem_eraseDups, List.mem_filterMap, callee?_eq_some, Option.some.injEq,
        exists_eq_left', executed, true_and, found]
    next skips =>
      have ignored := mt walksBody_eq_true.mpr skips
      simp [found, ignored]
  next missing => simp [missing]

namespace Walk

theorem isOnPath_iff {walk : Walk} {id : SubroutineId} :
    walk.isOnPath id = true ↔ id ∈ walk.path.map (·.id) := by
  simp [isOnPath]

theorem isFinished_iff {walk : Walk} {id : SubroutineId} :
    walk.isFinished id = true ↔ id ∈ walk.finished.map (·.id) := by
  simp [isFinished]

def Reports (walk : Walk) (caller callee : SubroutineId) : Prop :=
  ∃ cycle ∈ walk.cycles, cycle.closer = caller ∧ cycle.start = callee

/-- A call that needs no second look. -/
def Settles (walk : Walk) (caller callee : SubroutineId) : Prop :=
  callee ∈ walk.finished.map (·.id) ∨ walk.Reports caller callee

def Extends (later earlier : Walk) : Prop :=
  (∃ more, later.finished = earlier.finished ++ more) ∧
    ∃ more, later.cycles = earlier.cycles ++ more

/-- The state of a path whose last subroutine is calling another one, or none. All calls before
that were settled. -/
def OnTheWay (types : TypeTable) (walk : Walk) : Option SubroutineId → List Frame → Prop
  | _, [] => True
  | inner, frame :: outer =>
    (∃ followed, calleesOf types frame.id = followed ++ frame.pending ∧
      ∀ callee ∈ followed, walk.Settles frame.id callee ∨ inner = some callee) ∧
    (∀ callee, inner = some callee → Calls types frame.id callee) ∧
    OnTheWay types walk (some frame.id) outer

/-- What holds between any two steps of the search. -/
structure Invariant (types : TypeTable) (walk : Walk) : Prop where
  path : OnTheWay types walk none walk.path
  distinct : (walk.path.map (·.id) ++ walk.finished.map (·.id)).Nodup
  ordered : ∀ front node rest, walk.finished = front ++ node :: rest →
    ∀ callee, Calls types node.id callee →
      callee ∈ front.map (·.id) ∨ walk.Reports node.id callee
  genuine : ∀ cycle ∈ walk.cycles, cycle.Genuine types
  met : ∀ cycle ∈ walk.cycles, cycle.start ∈ walk.path.map (·.id) ++ walk.finished.map (·.id)
  reachable : ∀ id ∈ walk.path.map (·.id) ++ walk.finished.map (·.id), Reachable types id

theorem Extends.elsewhere (walk : Walk) (path : List Frame) :
    Extends { walk with path := path } walk :=
  ⟨⟨[], by simp⟩, ⟨[], by simp⟩⟩

theorem Extends.finished {later earlier : Walk} (extend : later.Extends earlier)
    {id : SubroutineId} (member : id ∈ earlier.finished.map (·.id)) :
    id ∈ later.finished.map (·.id) := by
  obtain ⟨⟨more, finished⟩, -⟩ := extend
  rw [finished, List.map_append]
  exact List.mem_append_left _ member

theorem Extends.reports {later earlier : Walk} (extend : later.Extends earlier)
    {caller callee : SubroutineId} (reported : earlier.Reports caller callee) :
    later.Reports caller callee := by
  obtain ⟨-, ⟨more, cycles⟩⟩ := extend
  obtain ⟨cycle, member, closes⟩ := reported
  exact ⟨cycle, by rw [cycles]; exact List.mem_append_left _ member, closes⟩

theorem Extends.settles {later earlier : Walk} (extend : later.Extends earlier)
    {caller callee : SubroutineId} (settled : earlier.Settles caller callee) :
    later.Settles caller callee :=
  settled.imp extend.finished extend.reports

theorem OnTheWay.mono {types : TypeTable} {later earlier : Walk} (extend : later.Extends earlier)
    {inner : Option SubroutineId} {path : List Frame} (way : earlier.OnTheWay types inner path) :
    later.OnTheWay types inner path := by
  induction path generalizing inner with
  | nil => trivial
  | cons frame outer ih =>
    obtain ⟨⟨followed, callees, settled⟩, calls, outside⟩ := way
    refine ⟨⟨followed, callees, ?_⟩, calls, ih outside⟩
    intro callee member
    exact (settled callee member).imp_left extend.settles

theorem OnTheWay.returned {types : TypeTable} {later earlier : Walk}
    (extend : later.Extends earlier) {id : SubroutineId} {path : List Frame}
    (way : earlier.OnTheWay types (some id) path) (finished : id ∈ later.finished.map (·.id)) :
    later.OnTheWay types none path := by
  cases path with
  | nil => trivial
  | cons frame outer =>
    obtain ⟨⟨followed, callees, settled⟩, calls, outside⟩ := way
    refine ⟨⟨followed, callees, ?_⟩, by simp, outside.mono extend⟩
    intro callee member
    left
    rcases settled callee member with before | inner
    · exact extend.settles before
    · obtain rfl := Option.some.inj inner
      exact .inl finished

theorem OnTheWay.chain {types : TypeTable} {walk : Walk} {inner : Option SubroutineId}
    {path : List Frame} (way : walk.OnTheWay types inner path) :
    (inner.toList ++ path.map (·.id)).IsChain fun callee caller => Calls types caller callee := by
  induction path generalizing inner with
  | nil => cases inner <;> simp
  | cons frame outer ih =>
    obtain ⟨-, calls, outside⟩ := way
    have rest := ih outside
    cases inner with
    | none => exact rest
    | some callee => exact .cons_cons (calls callee rfl) rest

theorem closer_closeCycle (id : SubroutineId) (outer : List SubroutineId) (callee : SubroutineId) :
    (closeCycle (id :: outer) callee).closer = id := by
  by_cases same : id = callee
  · simp [CallCycle.closer, closeCycle, same]
  · simp [CallCycle.closer, closeCycle, same, List.getLastD_eq_getLast?]

theorem closeCycle_genuine {types : TypeTable} {id callee : SubroutineId}
    {outer : List SubroutineId}
    (chain : (id :: outer).IsChain fun callee caller => Calls types caller callee)
    (distinct : (id :: outer).Nodup) (member : callee ∈ id :: outer)
    (calls : Calls types id callee) (reachable : Reachable types callee) :
    (closeCycle (id :: outer) callee).Genuine types := by
  obtain ⟨front, back, split, absent⟩ := List.eq_append_cons_of_mem member
  have taken : (id :: outer).takeWhile (· != callee) = front := by
    rw [split, List.takeWhile_append_of_pos]
    · simp
    · intro other inside
      simpa using ne_of_mem_of_not_mem inside absent
  have last : (callee :: front.reverse).getLast? = some id := by
    have first := congrArg List.head? split
    cases front with
    | nil => simpa using first.symm
    | cons other front =>
      rw [List.reverse_cons, ← List.cons_append, List.getLast?_concat]
      simpa using first.symm
  rw [split] at chain distinct
  have prefixed : (front ++ [callee]).IsChain fun callee caller => Calls types caller callee := by
    rw [List.append_cons] at chain
    exact chain.left_of_append
  have backwards : (callee :: front.reverse).IsChain (Calls types) := by
    rw [← List.reverse_concat]
    exact List.isChain_reverse.mpr prefixed
  refine ⟨?_, ?_, reachable⟩
  · simp only [CallCycle.path, closeCycle, taken]
    refine List.isChain_append.mpr ⟨backwards, .singleton _, ?_⟩
    intro caller isLast start isStart
    rw [last] at isLast
    obtain rfl := Option.some.inj isLast
    obtain rfl := Option.some.inj isStart
    exact calls
  · simp only [closeCycle, taken]
    have part := (List.nodup_append.mp distinct).1
    exact List.nodup_cons.mpr ⟨by simpa using absent, (List.reverse_perm front).nodup_iff.mpr part⟩

/-- After a call was followed, its caller goes on with the next one, or waits for the callee. -/
theorem OnTheWay.advance {types : TypeTable} {later earlier : Walk}
    (extend : later.Extends earlier) {id callee : SubroutineId} {pending : List SubroutineId}
    {outer : List Frame} {inner : Option SubroutineId}
    (way : earlier.OnTheWay types none (⟨id, callee :: pending⟩ :: outer))
    (settled : later.Settles id callee ∨ inner = some callee)
    (waits : ∀ other, inner = some other → other = callee) :
    later.OnTheWay types inner (⟨id, pending⟩ :: outer) := by
  obtain ⟨⟨followed, callees, before⟩, -, outside⟩ := way
  refine ⟨⟨followed ++ [callee], by simpa using callees, ?_⟩, ?_, outside.mono extend⟩
  · intro other member
    rcases List.mem_append.mp member with earlierOne | last
    · exact .inl (extend.settles ((before other earlierOne).resolve_right (by simp)))
    · obtain rfl := List.mem_singleton.mp last
      exact settled
  · intro other waiting
    obtain rfl := waits other waiting
    apply mem_calleesOf.mp
    rw [callees]
    simp

theorem OnTheWay.calls {types : TypeTable} {walk : Walk} {id callee : SubroutineId}
    {pending : List SubroutineId} {outer : List Frame} {inner : Option SubroutineId}
    (way : walk.OnTheWay types inner (⟨id, callee :: pending⟩ :: outer)) :
    Calls types id callee := by
  obtain ⟨⟨followed, callees, -⟩, -, -⟩ := way
  apply mem_calleesOf.mp
  rw [callees]
  simp

theorem Invariant.finish {types : TypeTable} {walk : Walk} {id : SubroutineId}
    {outer : List Frame} (invariant : Invariant types walk) (path : walk.path = ⟨id, []⟩ :: outer) :
    Invariant types
      { walk with path := outer, finished := walk.finished ++ [nodeOf types id] } := by
  obtain ⟨way, distinct, ordered, genuine, met, reachable⟩ := invariant
  rw [path] at way distinct met reachable
  have moved : (outer.map (·.id) ++ (walk.finished ++ [nodeOf types id]).map (·.id)).Perm
      (id :: outer.map (·.id) ++ walk.finished.map (·.id)) := by
    rw [List.map_append, ← List.append_assoc]
    exact List.perm_append_singleton id _
  have extend : Extends
      { walk with path := outer, finished := walk.finished ++ [nodeOf types id] } walk :=
    ⟨⟨[nodeOf types id], rfl⟩, ⟨[], by simp⟩⟩
  obtain ⟨⟨followed, callees, settled⟩, -, outside⟩ := way
  refine ⟨outside.returned extend ?_, moved.nodup_iff.mpr distinct, ?_, genuine, ?_, ?_⟩
  · simp [nodeOf]
  · intro front node rest split callee calls
    rcases List.eq_nil_or_concat rest with rfl | ⟨rest, last, rfl⟩
    · -- The subroutine that is being finished: all of its calls were settled.
      obtain ⟨rfl, same⟩ := List.append_inj' split rfl
      obtain rfl := (List.cons.inj same).1
      have member : callee ∈ followed := by
        have called : callee ∈ calleesOf types id := mem_calleesOf.mpr calls
        simpa [callees] using called
      exact (settled callee member).resolve_right (by simp)
    · rw [List.concat_eq_append, ← List.cons_append, ← List.append_assoc] at split
      exact ordered front node rest (List.append_inj' split rfl).1 callee calls
  · intro cycle found
    exact moved.mem_iff.mpr (met cycle found)
  · intro other member
    exact reachable other (moved.mem_iff.mp member)

theorem Invariant.follow {types : TypeTable} {walk : Walk} {id callee : SubroutineId}
    {pending : List SubroutineId} {outer : List Frame} (invariant : Invariant types walk)
    (path : walk.path = ⟨id, callee :: pending⟩ :: outer) :
    Invariant types ({ walk with path := ⟨id, pending⟩ :: outer }.follow types callee) := by
  obtain ⟨way, distinct, ordered, genuine, met, reachable⟩ := invariant
  rw [path] at way distinct met reachable
  have calls := way.calls
  have reached : Reachable types callee :=
    (reachable id (by simp)).callee calls
  unfold Walk.follow
  split
  next onPath =>
    have member : callee ∈ id :: outer.map (·.id) := isOnPath_iff.mp onPath
    have chain := way.chain
    have cycle := closeCycle_genuine chain (List.nodup_append.mp distinct).1 member calls reached
    have closes := closer_closeCycle id (outer.map (·.id)) callee
    have extend : Extends
        { walk with
          path := ⟨id, pending⟩ :: outer
          cycles := walk.cycles ++ [closeCycle (id :: outer.map (·.id)) callee] } walk :=
      ⟨⟨[], by simp⟩, ⟨_, rfl⟩⟩
    refine ⟨way.advance extend (.inl (.inr ⟨_, by simp, closes, rfl⟩)) (by simp), distinct, ?_, ?_,
      ?_, reachable⟩
    · intro front node rest split other calling
      exact (ordered front node rest split other calling).imp_right extend.reports
    · intro reported found
      rcases List.mem_append.mp found with before | last
      · exact genuine reported before
      · obtain rfl := List.mem_singleton.mp last
        exact cycle
    · intro reported found
      rcases List.mem_append.mp found with before | last
      · exact met reported before
      · obtain rfl := List.mem_singleton.mp last
        exact List.mem_append_left _ member
  next elsewhere =>
    split
    next finished =>
      have settled : walk.Settles id callee := .inl (isFinished_iff.mp finished)
      exact ⟨way.advance (.elsewhere walk _) (.inl settled) (by simp), distinct, ordered, genuine,
        met, reachable⟩
    next unfinished =>
      have fresh : callee ∉ (id :: outer.map (·.id)) ++ walk.finished.map (·.id) := by
        intro member
        rcases List.mem_append.mp member with onPath | finished
        · exact elsewhere (isOnPath_iff.mpr onPath)
        · exact unfinished (isFinished_iff.mpr finished)
      refine ⟨⟨⟨[], rfl, by simp⟩, by simp, ?_⟩, ?_, ordered, genuine, ?_, ?_⟩
      · exact way.advance (.elsewhere walk _) (.inr rfl) (by simp)
      · exact List.nodup_cons.mpr ⟨fresh, distinct⟩
      · intro cycle found
        exact List.mem_cons_of_mem _ (met cycle found)
      · intro other member
        rcases List.mem_cons.mp member with rfl | before
        · exact reached
        · exact reachable other before

theorem Invariant.step? {types : TypeTable} {walk next : Walk} (invariant : Invariant types walk)
    (stepped : walk.step? types = some next) : Invariant types next := by
  unfold Walk.step? at stepped
  split at stepped
  next => contradiction
  next id outer path =>
    obtain rfl := Option.some.inj stepped
    exact invariant.finish path
  next id callee pending outer path =>
    obtain rfl := Option.some.inj stepped
    exact invariant.follow path

theorem isSeen_step? {types : TypeTable} {walk next : Walk}
    (stepped : walk.step? types = some next) (id : SubroutineId) (seen : walk.isSeen id = true) :
    next.isSeen id = true := by
  unfold Walk.step? at stepped
  split at stepped
  next => contradiction
  next last outer path =>
    obtain rfl := Option.some.inj stepped
    exact isSeen_finish types path id seen
  next last callee pending outer path =>
    obtain rfl := Option.some.inj stepped
    have shorter : { walk with path := ⟨last, pending⟩ :: outer }.isSeen id = true := by
      simpa [isSeen, isOnPath, isFinished, path] using seen
    unfold Walk.follow
    split
    next => exact shorter
    next =>
      split
      next => exact shorter
      next => exact isSeen_enter types id shorter

theorem path_of_step?_eq_none {types : TypeTable} {walk : Walk}
    (stopped : walk.step? types = none) : walk.path = [] := by
  unfold Walk.step? at stopped
  split at stopped
  next path => exact path
  next => contradiction
  next => contradiction

/-- The search keeps its invariant and all it has seen, and ends with an empty path. -/
theorem run_spec (types : TypeTable) (walk : Walk) (invariant : Invariant types walk) :
    Invariant types (walk.run types) ∧ (walk.run types).path = [] ∧
      ∀ id, walk.isSeen id = true → (walk.run types).isSeen id = true := by
  fun_induction Walk.run types walk with
  | case1 walk next stepped ih =>
    obtain ⟨kept, ended, seen⟩ := ih (invariant.step? stepped)
    exact ⟨kept, ended, fun id before => seen id (isSeen_step? stepped id before)⟩
  | case2 walk stopped =>
    exact ⟨invariant, path_of_step?_eq_none stopped, fun _ before => before⟩

structure Complete (types : TypeTable) (walk : Walk) : Prop where
  invariant : Invariant types walk
  ended : walk.path = []
  roots : ∀ root, IsRoot types root → root ∈ walk.finished.map (·.id)

theorem isSeen_of_ended {walk : Walk} (ended : walk.path = []) {id : SubroutineId} :
    walk.isSeen id = true ↔ id ∈ walk.finished.map (·.id) := by
  rw [isSeen, isOnPath, ended, List.any_nil, Bool.false_or, isFinished_iff]

theorem Invariant.enter {types : TypeTable} {walk : Walk} (invariant : Invariant types walk)
    (ended : walk.path = []) {root : SubroutineId} (isRoot : IsRoot types root)
    (fresh : root ∉ walk.finished.map (·.id)) : Invariant types (walk.enter types root) := by
  obtain ⟨-, distinct, ordered, genuine, met, reachable⟩ := invariant
  rw [ended] at distinct met reachable
  have path : (walk.enter types root).path = [⟨root, calleesOf types root⟩] := by
    rw [Walk.enter, ended]
  refine ⟨?_, ?_, ordered, genuine, ?_, ?_⟩
  · rw [path]
    exact ⟨⟨[], rfl, by simp⟩, by simp, trivial⟩
  · rw [path]
    exact List.nodup_cons.mpr ⟨fresh, distinct⟩
  · intro cycle found
    rw [path]
    exact List.mem_cons_of_mem _ (met cycle found)
  · intro id member
    rw [path] at member
    rcases List.mem_cons.mp member with rfl | before
    · exact isRoot.reachable
    · exact reachable id before

theorem visit_spec {types : TypeTable} {walk : Walk} (invariant : Invariant types walk)
    (ended : walk.path = []) {root : SubroutineId} (isRoot : IsRoot types root) :
    Invariant types (walk.visit types root) ∧ (walk.visit types root).path = [] ∧
      root ∈ (walk.visit types root).finished.map (·.id) ∧
      ∀ id ∈ walk.finished.map (·.id), id ∈ (walk.visit types root).finished.map (·.id) := by
  unfold visit
  split
  next done => exact ⟨invariant, ended, isFinished_iff.mp done, fun _ before => before⟩
  next unfinished =>
    have entered := invariant.enter ended isRoot (mt isFinished_iff.mpr unfinished)
    obtain ⟨kept, stopped, seen⟩ := run_spec types _ entered
    refine ⟨kept, stopped, ?_, ?_⟩
    · apply (isSeen_of_ended stopped).mp
      apply seen
      simp [isSeen, isOnPath, Walk.enter]
    · intro id before
      apply (isSeen_of_ended stopped).mp
      apply seen
      exact isSeen_enter types id ((isSeen_of_ended ended).mpr before)

theorem visits_spec {types : TypeTable} (roots : List SubroutineId) {walk : Walk}
    (invariant : Invariant types walk) (ended : walk.path = [])
    (areRoots : ∀ root ∈ roots, IsRoot types root) :
    Invariant types (roots.foldl (visit types) walk) ∧
      (roots.foldl (visit types) walk).path = [] ∧
      (∀ root ∈ roots, root ∈ (roots.foldl (visit types) walk).finished.map (·.id)) ∧
      ∀ id ∈ walk.finished.map (·.id),
        id ∈ (roots.foldl (visit types) walk).finished.map (·.id) := by
  induction roots generalizing walk with
  | nil => exact ⟨invariant, ended, by simp, fun _ before => before⟩
  | cons root roots ih =>
    obtain ⟨kept, stopped, finished, before⟩ :=
      visit_spec invariant ended (areRoots root List.mem_cons_self)
    obtain ⟨keptAll, stoppedAll, finishedAll, beforeAll⟩ :=
      ih kept stopped fun other member => areRoots other (List.mem_cons_of_mem _ member)
    refine ⟨keptAll, stoppedAll, ?_, fun id member => beforeAll id (before id member)⟩
    intro other member
    rcases List.mem_cons.mp member with rfl | later
    · exact beforeAll other finished
    · exact finishedAll other later

theorem mem_roots {types : TypeTable} {id : SubroutineId} :
    id ∈ roots types ↔ IsRoot types id := by
  simp only [roots, IsRoot, List.mem_map, List.mem_append, List.mem_filter, Bool.and_eq_true,
    Bool.not_eq_true']
  constructor
  · rintro ⟨subroutine, ⟨member, entry⟩ | ⟨member, root, -⟩, rfl⟩
    · exact ⟨subroutine, member, .inl entry, rfl⟩
    · exact ⟨subroutine, member, .inr root, rfl⟩
  · rintro ⟨subroutine, member, flagged, rfl⟩
    refine ⟨subroutine, ?_, rfl⟩
    cases entry : subroutine.isEntry with
    | true => exact .inl ⟨member, rfl⟩
    | false => exact .inr ⟨member, flagged.resolve_left (by simp [entry]), rfl⟩

theorem search_complete (types : TypeTable) : Complete types (search types) := by
  have initial : Invariant types {} :=
    ⟨trivial, by simp, by simp, by simp, by simp, by simp⟩
  obtain ⟨kept, stopped, finished, -⟩ :=
    visits_spec (roots types) initial rfl fun _ member => mem_roots.mp member
  exact ⟨kept, stopped, fun root isRoot => finished root (mem_roots.mpr isRoot)⟩

theorem Complete.callee {types : TypeTable} {walk : Walk} (complete : Complete types walk)
    {caller callee : SubroutineId} (finished : caller ∈ walk.finished.map (·.id))
    (calls : Calls types caller callee) : callee ∈ walk.finished.map (·.id) := by
  obtain ⟨node, member, rfl⟩ := List.mem_map.mp finished
  obtain ⟨front, rest, split⟩ := List.append_of_mem member
  rcases complete.invariant.ordered front node rest split callee calls with before | reported
  · rw [split, List.map_append]
    exact List.mem_append_left _ before
  · obtain ⟨cycle, found, -, rfl⟩ := reported
    simpa [complete.ended] using complete.invariant.met cycle found

theorem Complete.mem_finished {types : TypeTable} {walk : Walk} (complete : Complete types walk)
    {id : SubroutineId} : id ∈ walk.finished.map (·.id) ↔ Reachable types id := by
  constructor
  · intro finished
    exact complete.invariant.reachable id (List.mem_append_right _ finished)
  · rintro ⟨root, isRoot, path⟩
    induction path with
    | refl => exact complete.roots root isRoot
    | tail _ calls ih => exact complete.callee ih calls

theorem Complete.nodup {types : TypeTable} {walk : Walk} (complete : Complete types walk) :
    (walk.finished.map (·.id)).Nodup :=
  (List.nodup_append.mp complete.invariant.distinct).2.1

theorem Complete.before {types : TypeTable} {walk : Walk} (complete : Complete types walk)
    {caller callee : SubroutineId} (reachable : Reachable types caller)
    (calls : Calls types caller callee) :
    (walk.finished.map (·.id)).idxOf callee < (walk.finished.map (·.id)).idxOf caller ∨
      walk.Reports caller callee := by
  obtain ⟨node, member, rfl⟩ := List.mem_map.mp (complete.mem_finished.mpr reachable)
  obtain ⟨front, rest, split⟩ := List.append_of_mem member
  refine (complete.invariant.ordered front node rest split callee calls).imp_left fun before => ?_
  have distinct := complete.nodup
  rw [split, List.map_append, List.map_cons] at distinct ⊢
  have absent : node.id ∉ front.map (·.id) :=
    fun twice => (List.nodup_append.mp distinct).2.2 _ twice _ List.mem_cons_self rfl
  rw [List.idxOf_append_of_mem before, List.idxOf_append_of_notMem absent, List.idxOf_cons_self,
    Nat.add_zero]
  exact List.idxOf_lt_length_of_mem before

/-- Along a cycle of unreported calls, each subroutine would have finished before itself. -/
theorem Complete.reports {types : TypeTable} {walk : Walk} (complete : Complete types walk)
    {cycle : CallCycle} (reachable : Reachable types cycle.start)
    (chain : cycle.path.IsChain (Calls types)) :
    ∃ reported ∈ walk.cycles, [reported.closer, reported.start] <:+: cycle.path := by
  by_contra unreported
  have descends : cycle.path.IsChain fun caller callee =>
      (walk.finished.map (·.id)).idxOf callee < (walk.finished.map (·.id)).idxOf caller := by
    apply List.isChain_iff_forall_rel_of_append_cons_cons.mpr
    intro caller callee front rest split
    have calls := List.isChain_iff_forall_rel_of_append_cons_cons.mp chain split
    have reached : Reachable types caller := by
      apply complete.mem_finished.mp
      refine chain.induction (· ∈ walk.finished.map (·.id)) _ ?_ ?_ caller (by simp [split])
      · exact fun _ _ calls finished => complete.callee finished calls
      · exact fun _ => complete.mem_finished.mpr reachable
    rcases complete.before reached calls with before | ⟨reported, found, rfl, rfl⟩
    · exact before
    · exact absurd ⟨reported, found, front, rest, by simp [split]⟩ unreported
  have first : (walk.finished.map (·.id)).idxOf cycle.start <
      (walk.finished.map (·.id)).idxOf cycle.start :=
    List.rel_of_pairwise_cons descends.pairwise (by simp)
  exact Nat.lt_irrefl _ first

end Walk

theorem build_eq_ok {types : TypeTable} {graph : CallGraph} :
    build types = .ok graph ↔
      (search types).cycles = [] ∧ graph = { nodes := (search types).finished } := by
  unfold build
  cases found : (search types).cycles with
  | nil => simp [found, eq_comm]
  | cons => simp [found]

theorem build_eq_error {types : TypeTable} {cycles : List CallCycle} :
    build types = .error cycles ↔ (search types).cycles = cycles ∧ cycles ≠ [] := by
  unfold build
  cases found : (search types).cycles with
  | nil => simp +contextual [found, eq_comm]
  | cons => simp +contextual [found, eq_comm]

theorem contains_iff {graph : CallGraph} {id : SubroutineId} :
    graph.contains id = true ↔ id ∈ graph.order := by
  simp [contains, order]

/-- A graph is built exactly if no cycle of calls can be reached. It then holds what can be
reached, callees before callers. Otherwise every cycle that is reported is one of calls that can be
reached, simple and named by where it starts, and all others contain the call that closes one of
these. -/
theorem build_exact (types : TypeTable) :
    ((∃ graph, build types = .ok graph) ↔
      ¬∃ cycle : CallCycle, Reachable types cycle.start ∧ cycle.path.IsChain (Calls types)) ∧
    (∀ graph, build types = .ok graph →
      (∀ id, graph.contains id = true ↔ Reachable types id) ∧
      (∀ id, id ∈ graph.order ↔ Reachable types id) ∧ graph.order.Nodup ∧
      ∀ caller callee, Reachable types caller → Calls types caller callee →
        graph.order.idxOf callee < graph.order.idxOf caller) ∧
    ∀ cycles, build types = .error cycles →
      callGraph types = .error (cycles.map fun cycle =>
        .recursion (types.fullName cycle.start) (cycle.path.map types.fullName)) ∧
      (∀ cycle ∈ cycles, cycle.Genuine types) ∧
      ∀ cycle : CallCycle, Reachable types cycle.start → cycle.path.IsChain (Calls types) →
        ∃ reported ∈ cycles, [reported.closer, reported.start] <:+: cycle.path := by
  have complete := Walk.search_complete types
  refine ⟨⟨?_, ?_⟩, ?_, ?_⟩
  · rintro ⟨graph, built⟩ ⟨cycle, reachable, chain⟩
    obtain ⟨reported, found, -⟩ := complete.reports reachable chain
    rw [(build_eq_ok.mp built).1] at found
    exact List.not_mem_nil found
  · intro acyclic
    have clean : (search types).cycles = [] := by
      rw [List.eq_nil_iff_forall_not_mem]
      intro cycle found
      have genuine := complete.invariant.genuine cycle found
      exact acyclic ⟨cycle, genuine.reachable, genuine.chain⟩
    exact ⟨_, build_eq_ok.mpr ⟨clean, rfl⟩⟩
  · intro graph built
    obtain ⟨clean, rfl⟩ := build_eq_ok.mp built
    refine ⟨fun id => contains_iff.trans complete.mem_finished, fun id => complete.mem_finished,
      complete.nodup, ?_⟩
    intro caller callee reachable calls
    refine (complete.before reachable calls).resolve_right ?_
    rintro ⟨cycle, found, -⟩
    rw [clean] at found
    exact List.not_mem_nil found
  · intro cycles failed
    obtain ⟨rfl, -⟩ := build_eq_error.mp failed
    refine ⟨?_, complete.invariant.genuine, fun cycle => complete.reports⟩
    simp only [callGraph, failed]
    rfl

-- A subroutine that calls itself and, through its caller, that caller: both are reported.
example :
    build { types := [{ id := 0, name := "Game", value := .primitive .object, subroutines :=
      [{ id := ⟨0, 0⟩, name := "Main", fullName := "Game.Main", isEntry := true
         instructions := [⟨.call, .method ⟨0, 1⟩⟩] },
        { id := ⟨0, 1⟩, name := "Ping", fullName := "Game.Ping"
          instructions := [⟨.call, .method ⟨0, 2⟩⟩] },
        { id := ⟨0, 2⟩, name := "Pong", fullName := "Game.Pong"
          instructions := [⟨.call, .method ⟨0, 2⟩⟩, ⟨.call, .method ⟨0, 1⟩⟩] }] }] } =
      .error [⟨⟨0, 2⟩, []⟩, ⟨⟨0, 1⟩, [⟨0, 2⟩]⟩] := by
  cbv

end CallGraph

end Cartridge.Program
