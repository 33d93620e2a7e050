import Cartridge.Proofs.StackTracking

/-!
The flow graph against the flow of control between single instructions.

Control goes on to the next instruction or to the target of a branch. As blocks start wherever a
branch goes and wherever one stands before, only the last instruction of a block takes control to
another one, and then to the first instruction there. The edges of the graph are these steps and no
others.
-/

namespace Cartridge.Code

/-- The instructions of a block. -/
def Block.indices (block : Block) : List Nat :=
  List.range' block.start (block.stop - block.start)

def Block.Contains (block : Block) (index : Nat) : Prop :=
  block.start ≤ index ∧ index < block.stop

namespace FlowGraph

open Emit (GoesTo)

/-- Control can pass from one instruction of a body to another. -/
def Flows (body : List Instruction) (index next : Nat) : Prop :=
  next < body.length ∧
    ∃ instruction, body[index]? = some instruction ∧ GoesTo instruction index next

/-- Where a block has to start: at the first instruction, at the target of a branch, and after a
branch or a return. -/
def Leads (body : List Instruction) (index : Nat) : Prop :=
  index < body.length ∧
    (index = 0 ∨ (∃ instruction ∈ body, instruction.branchTarget? = some index) ∨
      ∃ last instruction, index = last + 1 ∧ body[last]? = some instruction ∧
        instruction.endsBlock = true)

/-- A graph whose blocks are ranges of a body, with the flow of control between them as edges. -/
structure Exact (body : List Instruction) (graph : FlowGraph) : Prop where
  nonempty : ∀ block ∈ graph.blocks, block.start < block.stop
  covers : graph.blocks.flatMap Block.indices = List.range body.length
  holds : ∀ index position, graph.blockOf? index = some position ↔
    ∃ block, graph.blocks[position]? = some block ∧ block.Contains index
  starts : ∀ index, (∃ block ∈ graph.blocks, block.start = index) ↔ Leads body index
  successors : ∀ (position other : Nat) (block : Block), graph.blocks[position]? = some block →
    (other ∈ block.successors ↔ ∃ target : Block,
      graph.blocks[other]? = some target ∧ Flows body (block.stop - 1) target.start)
  inner : ∀ index next, Flows body index next →
    (∃ block ∈ graph.blocks, ∃ target ∈ graph.blocks,
      index + 1 = block.stop ∧ next = target.start) ∨
    next = index + 1 ∧ graph.blockOf? next = graph.blockOf? index
  inverse : ∀ position other : Nat,
    (∃ block : Block, graph.blocks[position]? = some block ∧ other ∈ block.successors) ↔
      ∃ target : Block, graph.blocks[other]? = some target ∧ position ∈ target.predecessors
  distinct : ∀ block ∈ graph.blocks, block.successors.Nodup ∧ block.predecessors.Nodup

/-- A range goes from its leader to the next, or to the end. -/
theorem getElem?_ranges (length : Nat) (leaders : List Nat) (position : Nat) :
    (ranges length leaders)[position]? =
      leaders[position]?.map fun start => (start, leaders[position + 1]?.getD length) := by
  fun_induction ranges length leaders generalizing position with
  | case1 => rfl
  | case2 start => cases position <;> rfl
  | case3 start next rest ih =>
    cases position with
    | zero => rfl
    | succ position => simpa using ih position

theorem flatMap_ranges {length start : Nat} {rest : List Nat}
    (sorted : (start :: rest).Pairwise (· < ·))
    (bounded : ∀ leader ∈ start :: rest, leader < length) :
    (ranges length (start :: rest)).flatMap (fun range => List.range' range.1 (range.2 - range.1)) =
      List.range' start (length - start) := by
  induction rest generalizing start with
  | nil => simp [ranges]
  | cons next rest ih =>
    have before : start < next := List.rel_of_pairwise_cons sorted List.mem_cons_self
    have inside : next < length := bounded next (by simp)
    have joined : List.range' start (next - start) ++
        List.range' (start + (next - start)) (length - next) =
          List.range' start (next - start + (length - next)) := List.range'_append_1
    rw [Nat.add_sub_cancel' (Nat.le_of_lt before)] at joined
    rw [ranges, List.flatMap_cons,
      ih sorted.of_cons fun leader member => bounded leader (List.mem_cons_of_mem _ member), joined]
    congr 1
    omega

section Body

variable {body : List Instruction} {index position : Nat} {block : Block}

theorem leads_iff : Leads body index ↔ index ∈ leaders body := by
  rw [mem_leaders, Leads, targets]
  refine and_congr_right fun _ => or_congr Iff.rfl (or_congr List.mem_filterMap.symm ?_)
  cases index with
  | zero => simp [followsEnd]
  | succ last =>
    simp only [Nat.add_right_cancel_iff, followsEnd, Option.any_eq_true]
    constructor
    · rintro ⟨_, instruction, rfl, found, ends⟩
      exact ⟨instruction, found, ends⟩
    · rintro ⟨instruction, found, ends⟩
      exact ⟨last, instruction, rfl, found, ends⟩

/-- What the block at a position consists of. -/
structure Located (body : List Instruction) (position : Nat) (block : Block) : Prop where
  start : (leaders body)[position]? = some block.start
  stop : block.stop = (leaders body)[position + 1]?.getD body.length
  successors : block.successors = successorsAt body (leaders body) block.stop
  predecessors : block.predecessors = predecessorsOf body position

theorem located_iff :
    (ofBody body).blocks[position]? = some block ↔ Located body position block := by
  rw [getElem?_blocks, getElem?_ranges, Option.map_map, Option.map_eq_some_iff]
  constructor
  · rintro ⟨start, found, rfl⟩
    exact ⟨found, rfl, rfl, rfl⟩
  · rintro ⟨found, stop, successors, predecessors⟩
    refine ⟨block.start, found, ?_⟩
    cases block
    simp_all

namespace Located

variable {other : Nat} {target : Block}

theorem mem_leaders (located : Located body position block) : block.start ∈ leaders body :=
  List.mem_of_getElem? located.start

theorem start_lt_stop (located : Located body position block) : block.start < block.stop := by
  rw [located.stop]
  cases next : (leaders body)[position + 1]? with
  | none => exact (FlowGraph.mem_leaders.mp located.mem_leaders).1
  | some leader =>
    obtain ⟨below, first⟩ := List.getElem?_eq_some_iff.mp located.start
    obtain ⟨above, second⟩ := List.getElem?_eq_some_iff.mp next
    have ordered := List.pairwise_iff_getElem.mp (leaders_sorted body) _ _ below above
      (Nat.lt_succ_self _)
    rwa [first, second] at ordered

theorem stop_le_length (located : Located body position block) : block.stop ≤ body.length := by
  rw [located.stop]
  cases next : (leaders body)[position + 1]? with
  | none => exact Nat.le_refl _
  | some leader => exact Nat.le_of_lt (FlowGraph.mem_leaders.mp (List.mem_of_getElem? next)).1

/-- A block that is not the last stops where another one starts. -/
theorem stop_mem_leaders (located : Located body position block)
    (inside : block.stop < body.length) : block.stop ∈ leaders body := by
  cases next : (leaders body)[position + 1]? with
  | none =>
    rw [located.stop, next] at inside
    exact absurd inside (Nat.lt_irrefl _)
  | some leader =>
    rw [located.stop, next]
    exact List.mem_of_getElem? next

/-- Blocks stop before the later ones start. -/
theorem stop_le_start (located : Located body position block)
    (found : Located body other target) (before : position < other) :
    block.stop ≤ target.start := by
  obtain ⟨below, first⟩ := List.getElem?_eq_some_iff.mp found.start
  have next : position + 1 < (leaders body).length := by omega
  rw [located.stop, List.getElem?_eq_getElem next, Option.getD_some, ← first]
  rcases Nat.eq_or_lt_of_le before with same | later
  · subst same
    exact Nat.le_refl _
  · exact Nat.le_of_lt
      (List.pairwise_iff_getElem.mp (leaders_sorted body) _ _ next below later)

theorem unique (located : Located body position block) (found : Located body other target)
    (here : block.Contains index) (there : target.Contains index) : position = other := by
  have notBefore : ∀ {first second : Nat} {one another : Block}, Located body first one →
      Located body second another → one.Contains index → another.Contains index →
      ¬first < second := by
    intro first second one another isOne isAnother inOne inAnother before
    have apart := isOne.stop_le_start isAnother before
    have high := inOne.2
    have low := inAnother.1
    omega
  have ordered := notBefore located found here there
  have reversed := notBefore found located there here
  omega

theorem contains_start (located : Located body position block) : block.Contains block.start :=
  ⟨Nat.le_refl _, located.start_lt_stop⟩

end Located

theorem exists_located_blockAt (inside : index < body.length) :
    ∃ block, Located body (blockAt (leaders body) index) block ∧ block.Contains index := by
  obtain ⟨range, found, holds⟩ := range_of_index inside
  have made := getElem?_blocks body (blockAt (leaders body) index)
  rw [found] at made
  exact ⟨_, located_iff.mp made, holds.starts, holds.stops⟩

theorem blockOf?_iff : (ofBody body).blockOf? index = some position ↔
    ∃ block, Located body position block ∧ block.Contains index := by
  constructor
  · intro found
    have inside := lt_of_blockOf? found
    obtain rfl := Option.some.inj ((blockOf?_ofBody inside).symm.trans found)
    exact exists_located_blockAt inside
  · rintro ⟨block, located, contains⟩
    have inside := Nat.lt_of_lt_of_le contains.2 located.stop_le_length
    obtain ⟨other, same, contained⟩ := exists_located_blockAt inside
    rw [blockOf?_ofBody inside, located.unique same contains contained]

theorem exists_located (inside : index < body.length) :
    ∃ position block, Located body position block ∧ block.Contains index :=
  ⟨_, blockOf?_iff.mp (blockOf?_ofBody inside)⟩

/-- Every leader has a block that starts there. -/
theorem exists_located_of_mem (leads : index ∈ leaders body) :
    ∃ position block, Located body position block ∧ block.start = index := by
  obtain ⟨position, found⟩ := List.getElem?_of_mem leads
  have made := getElem?_blocks body position
  rw [getElem?_ranges, found] at made
  exact ⟨position, _, located_iff.mp made, rfl⟩

theorem flows_last {stop next : Nat} {last : Instruction} (positive : 0 < stop)
    (found : body[stop - 1]? = some last) :
    Flows body (stop - 1) next ↔ next < body.length ∧
      (last.fallsThrough = true ∧ next = stop ∨ last.branchTarget? = some next) := by
  have behind : stop - 1 + 1 = stop := Nat.sub_add_cancel positive
  simp [Flows, GoesTo, found, behind]

/-- The successors of a block are the blocks of the instructions that control goes to from its
last one, each once. -/
theorem mem_successorsAt {stop other : Nat} (positive : 0 < stop) :
    other ∈ successorsAt body (leaders body) stop ↔
      ∃ next, Flows body (stop - 1) next ∧ blockAt (leaders body) next = other := by
  cases found : body[stop - 1]? with
  | none => simp [successorsAt, Flows, found]
  | some last =>
    simp only [successorsAt, found, flows_last positive found]
    cases last.branchTarget? <;> grind [mem_pushNew]

theorem nodup_successorsAt (stop : Nat) : (successorsAt body (leaders body) stop).Nodup := by
  unfold successorsAt
  split
  next => exact List.nodup_nil
  next last found => cases last.branchTarget? <;> grind [nodup_pushNew]

theorem mem_predecessorsOf {other : Nat} :
    position ∈ predecessorsOf body other ↔
      ∃ block, Located body position block ∧ other ∈ block.successors := by
  have listed : (allSuccessors body)[position]? =
      (ofBody body).blocks[position]?.map Block.successors := by
    rw [getElem?_blocks, allSuccessors, List.getElem?_map, Option.map_map]
    rfl
  rw [predecessorsOf, predecessorsAmong, List.mem_filter, List.mem_range]
  constructor
  · rintro ⟨-, passes⟩
    obtain ⟨successors, found, member⟩ := (Option.any_eq_true _ _).mp passes
    rw [listed] at found
    obtain ⟨block, isBlock, rfl⟩ := Option.map_eq_some_iff.mp found
    exact ⟨block, located_iff.mp isBlock, List.contains_iff_mem.mp member⟩
  · rintro ⟨block, located, member⟩
    have found : (allSuccessors body)[position]? = some block.successors := by
      rw [listed, located_iff.mpr located, Option.map_some]
    have inside := (List.getElem?_eq_some_iff.mp found).1
    rw [allSuccessors, List.length_map] at inside
    exact ⟨inside, by simp [found, member]⟩

/-- Control leaves a block only for the first instruction of a block. -/
theorem Located.leads_of_flows {next : Nat} (located : Located body position block)
    (flows : Flows body (block.stop - 1) next) : next ∈ leaders body := by
  obtain ⟨inside, last, found, falls | branches⟩ := flows
  · have positive := located.start_lt_stop
    obtain rfl : next = block.stop := by omega
    exact located.stop_mem_leaders inside
  · exact mem_leaders_of_branch found branches inside

theorem mem_successors {other : Nat} (located : Located body position block) :
    other ∈ block.successors ↔
      ∃ target, Located body other target ∧ Flows body (block.stop - 1) target.start := by
  have positive : 0 < block.stop := Nat.zero_lt_of_lt located.start_lt_stop
  rw [located.successors, mem_successorsAt positive]
  constructor
  · rintro ⟨next, flows, rfl⟩
    obtain ⟨other, target, isTarget, rfl⟩ :=
      exists_located_of_mem (located.leads_of_flows flows)
    have here := blockOf?_iff.mpr ⟨target, isTarget, isTarget.contains_start⟩
    rw [blockOf?_ofBody flows.1] at here
    obtain rfl := Option.some.inj here
    exact ⟨target, isTarget, flows⟩
  · rintro ⟨target, isTarget, flows⟩
    have here := blockOf?_iff.mpr ⟨target, isTarget, isTarget.contains_start⟩
    rw [blockOf?_ofBody flows.1] at here
    exact ⟨target.start, flows, Option.some.inj here⟩

/-- A step of control from inside a block stays there. -/
theorem Located.next_of_flows {next : Nat} (located : Located body position block)
    (contains : block.Contains index) (flows : Flows body index next)
    (inner : index + 1 ≠ block.stop) : next = index + 1 ∧ block.Contains next := by
  obtain ⟨inside, instruction, found, ⟨-, rfl⟩ | branches⟩ := flows
  · have low := contains.1
    have high := contains.2
    exact ⟨rfl, by omega, by omega⟩
  · have here := (List.getElem?_eq_some_iff.mp found).1
    have ends := Instruction.endsBlock_of_branchTarget? branches
    have stop := located.stop_le_length
    have high := contains.2
    -- The instruction behind a branch would start another block inside this one.
    have leads := mem_leaders_after_end found ends (by omega)
    obtain ⟨other, target, isTarget, start⟩ := exists_located_of_mem leads
    have low := contains.1
    have inBlock : block.Contains target.start := ⟨by omega, by omega⟩
    obtain rfl := located.unique isTarget inBlock isTarget.contains_start
    have same := located.start.symm.trans isTarget.start
    have starts := Option.some.inj same
    omega

end Body

theorem exists_located_of_mem_blocks {body : List Instruction} {block : Block}
    (member : block ∈ (ofBody body).blocks) : ∃ position, Located body position block := by
  obtain ⟨position, found⟩ := List.getElem?_of_mem member
  exact ⟨position, located_iff.mp found⟩

theorem flatMap_indices (body : List Instruction) :
    (ofBody body).blocks.flatMap Block.indices = List.range body.length := by
  have ranged : (ofBody body).blocks.flatMap Block.indices =
      (ranges body.length (leaders body)).flatMap fun range =>
        List.range' range.1 (range.2 - range.1) := by
    rw [← blocks_ranges, List.flatMap_map]
    rfl
  rw [ranged]
  rcases Nat.eq_zero_or_pos body.length with empty | nonempty
  · obtain rfl := List.eq_nil_of_length_eq_zero empty
    rfl
  · obtain ⟨rest, split⟩ := leaders_eq_cons nonempty
    have sorted := leaders_sorted body
    have bounded : ∀ leader ∈ leaders body, leader < body.length :=
      fun leader member => (mem_leaders.mp member).1
    rw [split] at sorted bounded ⊢
    rw [flatMap_ranges sorted bounded, List.range_eq_range', Nat.sub_zero]

theorem exists_block_at_iff {body : List Instruction} {index : Nat} :
    (∃ block ∈ (ofBody body).blocks, block.start = index) ↔ Leads body index := by
  rw [leads_iff]
  constructor
  · rintro ⟨block, member, rfl⟩
    obtain ⟨position, located⟩ := exists_located_of_mem_blocks member
    exact located.mem_leaders
  · intro leads
    obtain ⟨position, block, located, starts⟩ := exists_located_of_mem leads
    exact ⟨block, List.mem_of_getElem? (located_iff.mpr located), starts⟩

/-- Control leaves a block only from its last instruction, and enters one only at its first. -/
theorem within_or_between_of_flows {body : List Instruction} {index next : Nat}
    (flows : Flows body index next) :
    (∃ block ∈ (ofBody body).blocks, ∃ target ∈ (ofBody body).blocks,
      index + 1 = block.stop ∧ next = target.start) ∨
    next = index + 1 ∧ (ofBody body).blockOf? next = (ofBody body).blockOf? index := by
  obtain ⟨-, instruction, found, -⟩ := id flows
  obtain ⟨position, block, located, contains⟩ :=
    exists_located (List.getElem?_eq_some_iff.mp found).1
  by_cases last : index + 1 = block.stop
  · obtain rfl : index = block.stop - 1 := by omega
    obtain ⟨other, target, isTarget, starts⟩ :=
      exists_located_of_mem (located.leads_of_flows flows)
    exact .inl ⟨block, List.mem_of_getElem? (located_iff.mpr located), target,
      List.mem_of_getElem? (located_iff.mpr isTarget), last, starts.symm⟩
  · obtain ⟨same, there⟩ := located.next_of_flows contains flows last
    refine .inr ⟨same, ?_⟩
    rw [blockOf?_iff.mpr ⟨block, located, contains⟩, blockOf?_iff.mpr ⟨block, located, there⟩]

theorem successor_iff_predecessor {body : List Instruction} {position other : Nat} :
    (∃ block : Block, (ofBody body).blocks[position]? = some block ∧ other ∈ block.successors) ↔
      ∃ target : Block,
        (ofBody body).blocks[other]? = some target ∧ position ∈ target.predecessors := by
  simp only [located_iff]
  rw [← mem_predecessorsOf]
  constructor
  · intro member
    obtain ⟨block, located, successor⟩ := mem_predecessorsOf.mp member
    obtain ⟨target, isTarget, -⟩ := (mem_successors located).mp successor
    exact ⟨target, isTarget, by rwa [isTarget.predecessors]⟩
  · rintro ⟨target, isTarget, member⟩
    rwa [← isTarget.predecessors]

/-- The flow graph of a body is exact, whatever the branches of the body go to. -/
theorem ofBody_exact (body : List Instruction) : Exact body (ofBody body) := by
  refine ⟨?_, flatMap_indices body, ?_, fun _ => exists_block_at_iff, ?_,
    fun _ _ => within_or_between_of_flows, fun _ _ => successor_iff_predecessor, ?_⟩
  · intro block member
    obtain ⟨position, located⟩ := exists_located_of_mem_blocks member
    exact located.start_lt_stop
  · intro index position
    simp only [located_iff]
    exact blockOf?_iff
  · intro position other block found
    simp only [located_iff]
    exact mem_successors (located_iff.mp found)
  · intro block member
    obtain ⟨position, located⟩ := exists_located_of_mem_blocks member
    rw [located.successors, located.predecessors]
    exact ⟨nodup_successorsAt _, List.nodup_range.filter _⟩

end FlowGraph

end Cartridge.Code
