import Cartridge.Program.Fault

/-!
Who calls whom, starting from the roots of a program.

The machine has no activation records, so no subroutine may call itself, however indirectly. The
search goes depth first with a path of its own. It finishes a subroutine after all that it calls,
which orders callees before callers, and it goes on past every cycle it meets so as to report them
all.
-/

namespace Cartridge.Program

structure CallNode where
  id : SubroutineId
  callees : List SubroutineId
  deriving DecidableEq, Repr

/-- The reachable subroutines, callees before callers. -/
structure CallGraph where
  nodes : List CallNode := []
  deriving DecidableEq, Repr

/-- A subroutine that is called again by the last of the subroutines it leads to. -/
structure CallCycle where
  start : SubroutineId
  rest : List SubroutineId
  deriving DecidableEq, Repr

def Subroutine.walksBody (subroutine : Subroutine) : Bool :=
  match subroutine.intrinsic? with
  | none => true
  | some .alwaysInline => true
  | some _ => false

namespace CallGraph

def calleesOf (types : TypeTable) (id : SubroutineId) : List SubroutineId :=
  match types.subroutine? id with
  | some subroutine =>
    if subroutine.walksBody then
      (subroutine.instructions.filterMap Code.Instruction.callee?).eraseDups
    else []
  | none => []

structure Frame where
  id : SubroutineId
  pending : List SubroutineId
  deriving DecidableEq, Repr

/-- The state of the search: the path of calls that leads to where it is, with the last one first,
the finished subroutines in order, and the cycles met. -/
structure Walk where
  path : List Frame := []
  finished : List CallNode := []
  cycles : List CallCycle := []
  deriving DecidableEq, Repr

def contains (graph : CallGraph) (id : SubroutineId) : Bool :=
  graph.nodes.any fun node => node.id == id

/-- The cycle that a call to a subroutine on the path closes. The path has its last first. -/
def closeCycle (path : List SubroutineId) (id : SubroutineId) : CallCycle :=
  { start := id, rest := (path.takeWhile (· != id)).reverse }

def insert (id : SubroutineId) : List SubroutineId → List SubroutineId
  | [] => [id]
  | first :: rest => if id.le first then id :: first :: rest else first :: insert id rest

def nodeOf (types : TypeTable) (id : SubroutineId) : CallNode :=
  { id, callees := (calleesOf types id).foldr insert [] }

namespace Walk

def isOnPath (walk : Walk) (id : SubroutineId) : Bool :=
  walk.path.any fun frame => frame.id == id

def isFinished (walk : Walk) (id : SubroutineId) : Bool :=
  walk.finished.any fun node => node.id == id

def enter (types : TypeTable) (walk : Walk) (id : SubroutineId) : Walk :=
  { walk with path := { id, pending := calleesOf types id } :: walk.path }

/-- Follows a call: one to the path closes a cycle, and one to a finished subroutine needs no
second look. -/
def follow (types : TypeTable) (walk : Walk) (callee : SubroutineId) : Walk :=
  if walk.isOnPath callee then
    { walk with cycles := walk.cycles ++ [closeCycle (walk.path.map (·.id)) callee] }
  else if walk.isFinished callee then walk
  else walk.enter types callee

def step? (types : TypeTable) (walk : Walk) : Option Walk :=
  match walk.path with
  | [] => none
  | ⟨id, []⟩ :: outer =>
    some { walk with path := outer, finished := walk.finished ++ [nodeOf types id] }
  | ⟨id, callee :: pending⟩ :: outer =>
    some ({ walk with path := ⟨id, pending⟩ :: outer }.follow types callee)

end Walk

end CallGraph

def TypeTable.ids (types : TypeTable) : List SubroutineId :=
  types.types.zipIdx.flatMap fun (type, owner) =>
    (List.range type.subroutines.length).map fun index => { owner, index }

theorem TypeTable.mem_ids {types : TypeTable} {id : SubroutineId} {subroutine : Subroutine}
    (found : types.subroutine? id = some subroutine) : id ∈ types.ids := by
  simp only [TypeTable.subroutine?, TypeTable.get?, Option.bind_eq_bind,
    Option.bind_eq_some_iff] at found
  obtain ⟨type, owner, index⟩ := found
  obtain ⟨below, -⟩ := List.getElem?_eq_some_iff.mp index
  refine List.mem_flatMap.mpr ⟨(type, id.owner), ?_, ?_⟩
  · exact List.mk_mem_zipIdx_iff_getElem?.mpr owner
  · exact List.mem_map.mpr ⟨id.index, List.mem_range.mpr below, rfl⟩

namespace CallGraph

/-! The search ends, because every step takes from the calls that are still to be followed: those
of the path, and those of the subroutines that were not entered yet. -/

def weight (types : TypeTable) (id : SubroutineId) : Nat :=
  2 * (calleesOf types id).length + 1

theorem weight_of_not_mem {types : TypeTable} {id : SubroutineId} (absent : id ∉ types.ids) :
    weight types id = 1 := by
  unfold weight calleesOf
  split
  next found => exact absurd (TypeTable.mem_ids found) absent
  next => rfl

namespace Walk

def isSeen (walk : Walk) (id : SubroutineId) : Bool :=
  walk.isOnPath id || walk.isFinished id

def pathCost : List Frame → Nat
  | [] => 0
  | frame :: outer => 2 * frame.pending.length + 1 + pathCost outer

def unseenCost (types : TypeTable) (walk : Walk) : List SubroutineId → Nat
  | [] => 0
  | id :: rest => (if walk.isSeen id then 0 else weight types id) + unseenCost types walk rest

def cost (types : TypeTable) (walk : Walk) : Nat :=
  pathCost walk.path + unseenCost types walk types.ids

theorem unseenCost_le (types : TypeTable) {walk next : Walk}
    (kept : ∀ id, walk.isSeen id = true → next.isSeen id = true) (ids : List SubroutineId) :
    unseenCost types next ids ≤ unseenCost types walk ids := by
  induction ids with
  | nil => exact Nat.le_refl 0
  | cons id ids ih =>
    apply Nat.add_le_add _ ih
    cases before : walk.isSeen id with
    | true => simp [kept id before]
    | false =>
      rw [if_neg Bool.false_ne_true]
      split
      · exact Nat.zero_le _
      · exact Nat.le_refl _

theorem unseenCost_seen (types : TypeTable) {walk next : Walk} {id : SubroutineId}
    (kept : ∀ id, walk.isSeen id = true → next.isSeen id = true)
    (unseen : walk.isSeen id = false) (seen : next.isSeen id = true) {ids : List SubroutineId}
    (member : id ∈ ids) :
    unseenCost types next ids + weight types id ≤ unseenCost types walk ids := by
  induction ids with
  | nil => simp at member
  | cons other ids ih =>
    rcases List.mem_cons.mp member with rfl | inside
    · have rest := unseenCost_le types kept ids
      simp only [unseenCost, seen, unseen, if_true, Bool.false_eq_true, if_false]
      omega
    · have here := unseenCost_le types kept [other]
      have rest := ih inside
      simp only [unseenCost] at here ⊢
      omega

theorem isSeen_enter (types : TypeTable) {walk : Walk} {id : SubroutineId} (other : SubroutineId)
    (seen : walk.isSeen other = true) : (walk.enter types id).isSeen other = true := by
  simp only [isSeen, isOnPath, isFinished, enter, List.any_cons, Bool.or_eq_true] at seen ⊢
  exact seen.imp_left Or.inr

theorem isSeen_finish (types : TypeTable) {walk : Walk} {id : SubroutineId}
    {pending : List SubroutineId} {outer : List Frame} (path : walk.path = ⟨id, pending⟩ :: outer)
    (other : SubroutineId) (seen : walk.isSeen other = true) :
    { walk with path := outer, finished := walk.finished ++ [nodeOf types id] }.isSeen other =
      true := by
  simp only [isSeen, isOnPath, isFinished, path, List.any_cons, List.any_append, List.any_nil,
    nodeOf, Bool.or_eq_true, Bool.or_false] at seen ⊢
  rcases seen with (last | outside) | before
  · exact .inr (.inr last)
  · exact .inl outside
  · exact .inr (.inl before)

theorem cost_enter {types : TypeTable} {walk : Walk} {id : SubroutineId}
    (unseen : walk.isSeen id = false) :
    (walk.enter types id).cost types ≤ walk.cost types + 1 := by
  have kept : ∀ other, walk.isSeen other = true → (walk.enter types id).isSeen other = true :=
    isSeen_enter types
  have seen : (walk.enter types id).isSeen id = true := by
    simp [isSeen, isOnPath, enter]
  have longer : pathCost (walk.enter types id).path = weight types id + pathCost walk.path := rfl
  unfold cost
  rw [longer]
  by_cases member : id ∈ types.ids
  · have smaller := unseenCost_seen types kept unseen seen member
    omega
  · have light := weight_of_not_mem member
    have smaller := unseenCost_le types kept types.ids
    omega

theorem cost_cycles_le (types : TypeTable) (walk : Walk) (cycles : List CallCycle) :
    cost types { walk with cycles } ≤ walk.cost types := by
  apply Nat.add_le_add_left
  apply unseenCost_le
  intro id seen
  exact seen

theorem cost_follow (types : TypeTable) (walk : Walk) (callee : SubroutineId) :
    (walk.follow types callee).cost types ≤ walk.cost types + 1 := by
  unfold follow
  split
  next => exact Nat.le_succ_of_le (cost_cycles_le types walk _)
  next elsewhere =>
    split
    next => exact Nat.le_succ _
    next unfinished => exact cost_enter (by simp [isSeen, elsewhere, unfinished])

theorem cost_step? {types : TypeTable} {walk next : Walk}
    (stepped : walk.step? types = some next) : next.cost types < walk.cost types := by
  unfold step? at stepped
  split at stepped
  next => contradiction
  next id outer path =>
    obtain rfl := Option.some.inj stepped
    have smaller := unseenCost_le types (isSeen_finish types path) types.ids
    simp only [cost, path, pathCost, List.length_nil]
    omega
  next id callee pending outer path =>
    obtain rfl := Option.some.inj stepped
    have followed := cost_follow types { walk with path := ⟨id, pending⟩ :: outer } callee
    have same : unseenCost types { walk with path := ⟨id, pending⟩ :: outer } types.ids ≤
        unseenCost types walk types.ids :=
      unseenCost_le types (fun other seen => by
        simpa [isSeen, isOnPath, isFinished, path] using seen) types.ids
    have shorter : cost types { walk with path := ⟨id, pending⟩ :: outer } + 2 ≤
        walk.cost types := by
      simp only [cost, path, pathCost, List.length_cons]
      omega
    omega

def run (types : TypeTable) (walk : Walk) : Walk :=
  match _stepped : walk.step? types with
  | some next => run types next
  | none => walk
termination_by walk.cost types
decreasing_by exact cost_step? _stepped

def visit (types : TypeTable) (walk : Walk) (root : SubroutineId) : Walk :=
  if walk.isFinished root then walk else run types (walk.enter types root)

end Walk

def roots (types : TypeTable) : List SubroutineId :=
  let entries := types.subroutines.filter (·.isEntry)
  let others := types.subroutines.filter fun subroutine =>
    subroutine.isRoot && !subroutine.isEntry
  (entries ++ others).map (·.id)

def search (types : TypeTable) : Walk :=
  (roots types).foldl (Walk.visit types) {}

def build (types : TypeTable) : Except (List CallCycle) CallGraph :=
  let found := search types
  if found.cycles.isEmpty then .ok { nodes := found.finished } else .error found.cycles

def order (graph : CallGraph) : List SubroutineId :=
  graph.nodes.map (·.id)

def orderOf (graph : CallGraph) (owner : TypeId) : List SubroutineId :=
  graph.order.filter fun id => id.owner == owner

def callees (graph : CallGraph) (id : SubroutineId) : List SubroutineId :=
  ((graph.nodes.find? fun node => node.id == id).map (·.callees)).getD []

/-- How deep the calls below a subroutine nest, itself included, by the depths of its callees. -/
def depthOf (known : List (SubroutineId × Nat)) (node : CallNode) : Nat :=
  1 + (node.callees.filterMap fun callee => known.lookup callee).max?.getD 0

def depths (graph : CallGraph) : List (SubroutineId × Nat) :=
  graph.nodes.foldl (fun known node => (node.id, depthOf known node) :: known) []

/-- The greatest depth of nested calls, each of which takes two bytes of the hardware stack. -/
def maxDepth (graph : CallGraph) : Nat :=
  (graph.depths.map (·.2)).max?.getD 0

end CallGraph

def TypeTable.fullName (types : TypeTable) (id : SubroutineId) : String :=
  ((types.subroutine? id).map (·.fullName)).getD ""

def CallGraph.render (graph : CallGraph) (types : TypeTable) : String :=
  String.join (graph.nodes.map fun node =>
    types.fullName node.id ++ "\n" ++
      String.join (node.callees.map fun callee => "    -> " ++ types.fullName callee ++ "\n"))

def CallCycle.path (cycle : CallCycle) : List SubroutineId :=
  cycle.start :: cycle.rest ++ [cycle.start]

def CallCycle.fault (types : TypeTable) (cycle : CallCycle) : Fault :=
  .recursion (types.fullName cycle.start) (cycle.path.map types.fullName)

end Cartridge.Program
