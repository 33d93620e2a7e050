import Cartridge.Proofs.CallOrder
import Cartridge.Proofs.Keys
import Mathlib.Order.Bounds.Basic

/-!
How deep calls nest.

One sweep over a graph gives every subroutine one more than the deepest of its callees. That is the
length of the longest chain of calls from there, because the sweep meets each callee before any of
its callers: no depth that is asked for is still missing.
-/

namespace Cartridge.Program.CallGraph

/-! What holds of the empty walk and is kept by entering a subroutine and by every step holds of a
whole search. -/

namespace Walk

variable {types : TypeTable} {motive : Walk → Prop}

theorem run_induction
    (stepped : ∀ walk next, walk.step? types = some next → motive walk → motive next) {walk : Walk}
    (holds : motive walk) : motive (walk.run types) := by
  fun_induction Walk.run types walk with
  | case1 walk next step ih => exact ih (stepped walk next step holds)
  | case2 walk stopped => exact holds

theorem search_induction (initial : motive {})
    (entered : ∀ walk id, motive walk → motive (walk.enter types id))
    (stepped : ∀ walk next, walk.step? types = some next → motive walk → motive next) :
    motive (search types) := by
  unfold search
  generalize ({} : Walk) = walk at initial
  induction roots types generalizing walk with
  | nil => exact initial
  | cons root roots ih =>
    rw [List.foldl_cons]
    apply ih
    unfold visit
    split
    next => exact initial
    next => exact run_induction stepped (entered walk root initial)

theorem finished_follow (walk : Walk) (callee : SubroutineId) :
    (walk.follow types callee).finished = walk.finished := by
  unfold follow
  split
  next => rfl
  next =>
    split
    next => rfl
    next => rfl

/-- A subroutine is finished together with all that it calls. -/
theorem mem_finished_search {node : CallNode} (finished : node ∈ (search types).finished) :
    node = nodeOf types node.id := by
  revert node
  refine search_induction (motive := fun walk => ∀ {node}, node ∈ walk.finished →
    node = nodeOf types node.id) (fun absent => nomatch absent) (fun _ _ holds => holds) ?_
  intro walk next step holds node finished
  unfold step? at step
  split at step
  next => contradiction
  next id outer path =>
    obtain rfl := Option.some.inj step
    rcases List.mem_append.mp finished with before | last
    · exact holds before
    · rw [List.mem_singleton.mp last]
      rfl
  next id callee pending outer path =>
    obtain rfl := Option.some.inj step
    rw [finished_follow] at finished
    exact holds finished

end Walk

/-- A graph that lists every subroutine once and behind its callees. -/
structure Ordered (graph : CallGraph) : Prop where
  distinct : graph.order.Nodup
  before : ∀ front node rest, graph.nodes = front ++ node :: rest →
    ∀ callee ∈ node.callees, callee ∈ front.map (·.id)

theorem mem_insert {id other : SubroutineId} {ids : List SubroutineId} :
    other ∈ insert id ids ↔ other = id ∨ other ∈ ids := by
  induction ids with
  | nil => simp [insert]
  | cons first rest ih =>
    rw [insert]
    split
    · exact List.mem_cons
    · rw [List.mem_cons, ih, List.mem_cons, or_left_comm]

theorem mem_foldr_insert {id : SubroutineId} {ids : List SubroutineId} :
    id ∈ ids.foldr insert [] ↔ id ∈ ids := by
  induction ids with
  | nil => rfl
  | cons first rest ih => rw [List.foldr_cons, mem_insert, ih, List.mem_cons]

section Built

variable {types : TypeTable} {graph : CallGraph} (built : build types = .ok graph)
include built

theorem mem_callees_of_build {node : CallNode} (member : node ∈ graph.nodes)
    {callee : SubroutineId} : callee ∈ node.callees ↔ Calls types node.id callee := by
  obtain ⟨-, rfl⟩ := build_eq_ok.mp built
  rw [Walk.mem_finished_search member, nodeOf, mem_foldr_insert, mem_calleesOf]

theorem ordered_of_build : graph.Ordered := by
  have complete := Walk.search_complete types
  have calls := @mem_callees_of_build types graph built
  obtain ⟨clean, rfl⟩ := build_eq_ok.mp built
  refine ⟨complete.nodup, ?_⟩
  intro front node rest (split : (search types).finished = front ++ node :: rest) callee called
  have member : node ∈ (search types).finished := by simp [split]
  apply (complete.invariant.ordered front node rest split callee
    ((calls member).mp called)).resolve_right
  intro reported
  obtain ⟨cycle, found, -⟩ := reported
  rw [clean] at found
  exact List.not_mem_nil found

end Built

variable {graph : CallGraph}

theorem Ordered.callees_eq (ordered : graph.Ordered) {node : CallNode}
    (member : node ∈ graph.nodes) : graph.callees node.id = node.callees := by
  have found : graph.nodes.find? (·.id == node.id) = some node :=
    (find?_key_eq_some ordered.distinct).mpr ⟨member, rfl⟩
  rw [callees, found]
  rfl

/-- Subroutines of a graph, each of them a callee of the one before it. -/
structure Chain (graph : CallGraph) (ids : List SubroutineId) : Prop where
  inside : ∀ id ∈ ids, graph.contains id = true
  calls : ids.IsChain fun caller callee => callee ∈ graph.callees caller

theorem Chain.singleton {id : SubroutineId} (inside : graph.contains id = true) :
    graph.Chain [id] :=
  ⟨by simpa using inside, .singleton id⟩

theorem Chain.tail {id : SubroutineId} {ids : List SubroutineId} (chain : graph.Chain (id :: ids)) :
    graph.Chain ids :=
  ⟨fun other member => chain.inside other (List.mem_cons_of_mem _ member), chain.calls.tail⟩

theorem Chain.cons {caller callee : SubroutineId} {ids : List SubroutineId}
    (inside : graph.contains caller = true) (called : callee ∈ graph.callees caller)
    (chain : graph.Chain (callee :: ids)) : graph.Chain (caller :: callee :: ids) :=
  ⟨List.forall_mem_cons.mpr ⟨inside, chain.inside⟩, .cons_cons called chain.calls⟩

/-- The chains of a graph are those of the calls that the program can make. -/
theorem chain_iff {types : TypeTable} (built : build types = .ok graph) {ids : List SubroutineId} :
    graph.Chain ids ↔ (∀ id ∈ ids, Reachable types id) ∧ ids.IsChain (Calls types) := by
  have reached : ∀ {id}, graph.contains id = true ↔ Reachable types id := by
    intro id
    rw [contains_iff, (build_eq_ok.mp built).2]
    exact (Walk.search_complete types).mem_finished
  have called : ∀ {caller callee}, graph.contains caller = true →
      (callee ∈ graph.callees caller ↔ Calls types caller callee) := by
    intro caller callee inside
    obtain ⟨node, member, rfl⟩ := List.mem_map.mp (contains_iff.mp inside)
    rw [(ordered_of_build built).callees_eq member]
    exact mem_callees_of_build built member
  induction ids with
  | nil => exact ⟨fun _ => ⟨by simp, .nil⟩, fun _ => ⟨by simp, .nil⟩⟩
  | cons caller ids ih =>
    cases ids with
    | nil =>
      constructor
      · intro chain
        exact ⟨by simpa [← reached] using chain.inside, .singleton _⟩
      · intro calls
        apply Chain.singleton
        exact reached.mpr (calls.1 caller List.mem_cons_self)
    | cons callee ids =>
      constructor
      · intro chain
        have inside := chain.inside caller List.mem_cons_self
        obtain ⟨first, -⟩ := List.isChain_cons_cons.mp chain.calls
        obtain ⟨reachable, calls⟩ := ih.mp chain.tail
        exact ⟨List.forall_mem_cons.mpr ⟨reached.mp inside, reachable⟩,
          .cons_cons ((called inside).mp first) calls⟩
      · intro calls
        obtain ⟨reachable, rest⟩ := List.forall_mem_cons.mp calls.1
        obtain ⟨first, more⟩ := List.isChain_cons_cons.mp calls.2
        have inside := reached.mpr reachable
        exact Chain.cons inside ((called inside).mpr first) (ih.mpr ⟨rest, more⟩)

/-- The most subroutines that a chain from one of them passes through. -/
def Deepest (graph : CallGraph) (id : SubroutineId) (depth : Nat) : Prop :=
  IsGreatest {n | ∃ ids, graph.Chain (id :: ids) ∧ (id :: ids).length = n} depth

/-- The sweep knows the depths of the subroutines it has passed, and of no others. -/
structure KnowsDepths (graph : CallGraph) (front : List CallNode)
    (known : List (SubroutineId × Nat)) : Prop where
  ids : ∀ id, id ∈ known.map Prod.fst ↔ id ∈ front.map (·.id)
  depths : ∀ entry ∈ known, graph.Deepest entry.1 entry.2

theorem KnowsDepths.deepest {front : List CallNode} {known : List (SubroutineId × Nat)}
    (knows : graph.KnowsDepths front known) {id : SubroutineId} {depth : Nat}
    (found : known.lookup id = some depth) : graph.Deepest id depth := by
  obtain ⟨before, after, split, -⟩ := List.lookup_eq_some_iff.mp found
  apply knows.depths (id, depth)
  simp [split]

theorem KnowsDepths.lookup {front : List CallNode} {known : List (SubroutineId × Nat)}
    (knows : graph.KnowsDepths front known) {id : SubroutineId} (passed : id ∈ front.map (·.id)) :
    ∃ depth, known.lookup id = some depth := by
  obtain ⟨entry, member, named⟩ := List.mem_map.mp ((knows.ids id).mpr passed)
  apply Option.isSome_iff_exists.mp
  rw [List.lookup_isSome_iff]
  exact ⟨entry, member, by simp [named]⟩

theorem Ordered.deepest (ordered : graph.Ordered) {front rest : List CallNode} {node : CallNode}
    (split : graph.nodes = front ++ node :: rest) {known : List (SubroutineId × Nat)}
    (knows : graph.KnowsDepths front known) :
    graph.Deepest node.id (depthOf known node) := by
  have member : node ∈ graph.nodes := by simp [split]
  have inside : graph.contains node.id = true := contains_iff.mpr (List.mem_map_of_mem member)
  have callees := ordered.callees_eq member
  constructor
  · -- The longest chain goes on from the deepest callee.
    rw [depthOf]
    cases deepest : (node.callees.filterMap fun callee => known.lookup callee).max? with
    | none => exact ⟨[], Chain.singleton inside, rfl⟩
    | some depth =>
      obtain ⟨callee, called, found⟩ := List.mem_filterMap.mp (List.max?_mem deepest)
      obtain ⟨ids, chain, length⟩ := (knows.deepest found).1
      rw [← callees] at called
      refine ⟨callee :: ids, Chain.cons inside called chain, ?_⟩
      rw [List.length_cons, length, Nat.add_comm, Option.getD_some]
  · intro n longer
    obtain ⟨ids, chain, rfl⟩ := longer
    cases ids with
    | nil => exact Nat.le_add_right 1 _
    | cons callee ids =>
      have called := (List.isChain_cons_cons.mp chain.calls).1
      rw [callees] at called
      obtain ⟨depth, found⟩ := knows.lookup (ordered.before front node rest split callee called)
      have shorter : (callee :: ids).length ≤ depth :=
        (knows.deepest found).2 ⟨ids, chain.tail, rfl⟩
      have deepest :
          depth ≤ (node.callees.filterMap fun callee => known.lookup callee).max?.getD 0 :=
        List.le_max?_getD_of_mem (List.mem_filterMap.mpr ⟨callee, called, found⟩)
      rw [List.length_cons, depthOf]
      omega

theorem Ordered.knowsDepths_step (ordered : graph.Ordered) {front rest : List CallNode}
    {node : CallNode} (split : graph.nodes = front ++ node :: rest)
    {known : List (SubroutineId × Nat)} (knows : graph.KnowsDepths front known) :
    graph.KnowsDepths (front ++ [node]) ((node.id, depthOf known node) :: known) := by
  constructor
  · intro id
    rw [List.map_cons, List.mem_cons, knows.ids, List.map_append, List.mem_append,
      List.map_singleton, List.mem_singleton, or_comm]
  · intro entry member
    rcases List.mem_cons.mp member with rfl | before
    · exact ordered.deepest split knows
    · exact knows.depths entry before

/-- The sweep ends with the depths of all subroutines. -/
theorem Ordered.knowsDepths (ordered : graph.Ordered) :
    graph.KnowsDepths graph.nodes graph.depths := by
  have sweep : ∀ (rest front : List CallNode) (known : List (SubroutineId × Nat)),
      graph.nodes = front ++ rest → graph.KnowsDepths front known →
      graph.KnowsDepths graph.nodes
        (rest.foldl (fun known node => (node.id, depthOf known node) :: known) known) := by
    intro rest
    induction rest with
    | nil =>
      intro front known split knows
      rw [split, List.append_nil]
      exact knows
    | cons node rest ih =>
      intro front known split knows
      apply ih (front ++ [node]) _ _ (ordered.knowsDepths_step split knows)
      rw [split, List.append_assoc]
      rfl
  exact sweep graph.nodes [] [] rfl ⟨fun _ => Iff.rfl, by simp⟩

/-- The depth of a graph is the number of subroutines on its longest chain of calls. Those are the
chains of calls that the program can make from its roots. -/
theorem maxDepth_isGreatest {types : TypeTable} (built : build types = .ok graph) :
    IsGreatest {depth | ∃ ids, graph.Chain ids ∧ ids.length = depth} graph.maxDepth ∧
      (graph.order = [] → graph.maxDepth = 0) ∧
      ∀ ids, graph.Chain ids ↔ (∀ id ∈ ids, Reachable types id) ∧ ids.IsChain (Calls types) := by
  have knows := (ordered_of_build built).knowsDepths
  refine ⟨⟨?_, ?_⟩, ?_, fun ids => chain_iff built⟩
  · rw [maxDepth]
    cases deepest : (graph.depths.map (·.2)).max? with
    | none => exact ⟨[], ⟨by simp, .nil⟩, rfl⟩
    | some depth =>
      obtain ⟨entry, member, rfl⟩ := List.mem_map.mp (List.max?_mem deepest)
      obtain ⟨ids, chain, length⟩ := (knows.depths entry member).1
      exact ⟨entry.1 :: ids, chain, length⟩
  · intro n longer
    obtain ⟨ids, chain, rfl⟩ := longer
    cases ids with
    | nil => exact Nat.zero_le _
    | cons id ids =>
      have listed := contains_iff.mp (chain.inside id List.mem_cons_self)
      obtain ⟨entry, member, rfl⟩ := List.mem_map.mp ((knows.ids id).mpr listed)
      apply Nat.le_trans ((knows.depths entry member).2 ⟨ids, chain, rfl⟩)
      exact List.le_max?_getD_of_mem (List.mem_map_of_mem member)
  · intro empty
    rw [maxDepth, depths, List.map_eq_nil_iff.mp empty]
    rfl

/-- The entry leads to a subroutine both at once and over two others, and so does another root. -/
theorem maxDepth_isGreatest_detour :
    let types : TypeTable :=
      { types := [{ id := 0, name := "Game", value := .primitive .object, subroutines :=
          [{ id := ⟨0, 0⟩, name := "Main", fullName := "Game::Main", isEntry := true
             instructions := [⟨.call, .method ⟨0, 3⟩⟩, ⟨.call, .method ⟨0, 1⟩⟩] },
            { id := ⟨0, 1⟩, name := "Draw", fullName := "Game::Draw"
              instructions := [⟨.call, .method ⟨0, 2⟩⟩, ⟨.call, .method ⟨0, 3⟩⟩] },
            { id := ⟨0, 2⟩, name := "Line", fullName := "Game::Line"
              instructions := [⟨.call, .method ⟨0, 3⟩⟩] },
            { id := ⟨0, 3⟩, name := "Wait", fullName := "Game::Wait" },
            { id := ⟨0, 4⟩, name := "Tick", fullName := "Game::Tick", isRoot := true
              instructions := [⟨.call, .method ⟨0, 2⟩⟩] }] }] }
    ∃ graph, build types = .ok graph ∧ graph.maxDepth = 4 ∧
      graph.Chain [⟨0, 0⟩, ⟨0, 1⟩, ⟨0, 2⟩, ⟨0, 3⟩] ∧
      ∀ ids, graph.Chain ids → ids.length ≤ 4 := by
  intro types
  let graph : CallGraph :=
    { nodes := [⟨⟨0, 3⟩, []⟩, ⟨⟨0, 2⟩, [⟨0, 3⟩]⟩, ⟨⟨0, 1⟩, [⟨0, 2⟩, ⟨0, 3⟩]⟩,
        ⟨⟨0, 0⟩, [⟨0, 1⟩, ⟨0, 3⟩]⟩, ⟨⟨0, 4⟩, [⟨0, 2⟩]⟩] }
  have built : build types = .ok graph := by decide +kernel
  obtain ⟨⟨-, longest⟩, -, -⟩ := maxDepth_isGreatest built
  have depth : graph.maxDepth = 4 := by decide
  refine ⟨graph, built, depth, ⟨by decide, by decide⟩, ?_⟩
  intro ids chain
  rw [← depth]
  exact longest ⟨ids, chain, rfl⟩

end Cartridge.Program.CallGraph
