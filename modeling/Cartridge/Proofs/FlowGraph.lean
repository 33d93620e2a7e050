import Cartridge.Code.FlowGraph
import Mathlib.Data.List.Nodup

/-!
Blocks against the instructions they are made of.

Each round of making the graph is a loop, and what a round has built after some of its steps is
given here in closed form. The block of an index counts the leaders up to it, so it grows by one at
each leader and stays the same otherwise. The range at that position holds the index and ends before
the next leader, and an instruction that branches puts its block among the predecessors of its
target's block.
-/

namespace Cartridge.Code

theorem Instruction.endsBlock_of_branchTarget? {instruction : Instruction} {target : Nat}
    (branches : instruction.branchTarget? = some target) : instruction.endsBlock = true := by
  obtain ⟨opcode, operand⟩ := instruction
  unfold branchTarget? at branches
  split at branches <;> simp_all [endsBlock, Opcode.endsBlock]

namespace FlowGraph

theorem mem_insert {index other : Nat} {list : List Nat} :
    other ∈ insert index list ↔ other = index ∨ other ∈ list := by
  fun_induction insert index list with
  | case1 => simp
  | case2 => simp
  | case3 => simp
  | case4 first rest _ _ ih => simp [ih, or_left_comm]

theorem sorted_insert {index : Nat} {list : List Nat} (sorted : list.Pairwise (· < ·)) :
    (insert index list).Pairwise (· < ·) := by
  fun_induction insert index list with
  | case1 => exact List.pairwise_singleton _ _
  | case2 first rest below =>
    refine List.pairwise_cons.mpr ⟨?_, sorted⟩
    intro other member
    rcases List.mem_cons.mp member with rfl | later
    · exact below
    · exact Nat.lt_trans below (List.rel_of_pairwise_cons sorted later)
  | case3 => exact sorted
  | case4 first rest notBelow other ih =>
    refine List.pairwise_cons.mpr ⟨?_, ih sorted.of_cons⟩
    intro later member
    rcases mem_insert.mp member with rfl | further
    · omega
    · exact List.rel_of_pairwise_cons sorted further

/-- Whether the instruction just before an index ends a block. -/
def followsEnd (body : List Instruction) (index : Nat) : Bool :=
  match index with
  | 0 => false
  | last + 1 => body[last]?.any Instruction.endsBlock

section Gathering

variable {length index : Nat} {entry : Instruction × Nat} {gathered : List Nat}

theorem mem_gather :
    index ∈ gather length gathered entry ↔ index ∈ gathered ∨ index < length ∧
      (entry.1.branchTarget? = some index ∨ entry.1.endsBlock = true ∧ index = entry.2 + 1) := by
  unfold gather
  cases entry.1.branchTarget? with
  | none => grind [mem_insert]
  | some target => grind [mem_insert]

theorem sorted_gather (sorted : gathered.Pairwise (· < ·)) :
    (gather length gathered entry).Pairwise (· < ·) := by
  unfold gather
  cases entry.1.branchTarget? with
  | none => grind [sorted_insert]
  | some target => grind [sorted_insert]

theorem mem_foldl_gather {entries : List (Instruction × Nat)} :
    index ∈ entries.foldl (gather length) gathered ↔ index ∈ gathered ∨ index < length ∧
      ∃ entry ∈ entries, entry.1.branchTarget? = some index ∨
        entry.1.endsBlock = true ∧ index = entry.2 + 1 := by
  induction entries generalizing gathered with
  | nil => simp
  | cons entry entries ih =>
    rw [List.foldl_cons, ih, mem_gather, List.exists_mem_cons_iff, or_assoc, ← and_or_left]

theorem sorted_foldl_gather (sorted : gathered.Pairwise (· < ·))
    (entries : List (Instruction × Nat)) :
    (entries.foldl (gather length) gathered).Pairwise (· < ·) := by
  induction entries generalizing gathered with
  | nil => exact sorted
  | cons entry entries ih => exact ih (sorted_gather sorted)

end Gathering

theorem mem_leaders {body : List Instruction} {index : Nat} :
    index ∈ leaders body ↔ index < body.length ∧
      (index = 0 ∨ index ∈ targets body ∨ followsEnd body index = true) := by
  have first : index ∈ (if 0 < body.length then [0] else []) ↔
      index < body.length ∧ index = 0 := by
    split <;> simp <;> omega
  have targeted : (∃ entry ∈ body.zipIdx, entry.1.branchTarget? = some index) ↔
      index ∈ targets body := by
    rw [targets, List.mem_filterMap]
    constructor
    · rintro ⟨⟨instruction, place⟩, member, branches⟩
      exact ⟨instruction, List.mem_of_getElem? (List.mem_zipIdx_iff_getElem?.mp member), branches⟩
    · rintro ⟨instruction, member, branches⟩
      obtain ⟨place, found⟩ := List.getElem?_of_mem member
      exact ⟨(instruction, place), List.mem_zipIdx_iff_getElem?.mpr found, branches⟩
  have behind : (∃ entry ∈ body.zipIdx, entry.1.endsBlock = true ∧ index = entry.2 + 1) ↔
      followsEnd body index = true := by
    cases index with
    | zero => simp [followsEnd]
    | succ last =>
      rw [followsEnd, Option.any_eq_true]
      constructor
      · rintro ⟨⟨instruction, place⟩, member, ends, same⟩
        obtain rfl : last = place := Nat.succ.inj same
        exact ⟨instruction, List.mem_zipIdx_iff_getElem?.mp member, ends⟩
      · rintro ⟨instruction, found, ends⟩
        exact ⟨(instruction, last), List.mem_zipIdx_iff_getElem?.mpr found, ends, rfl⟩
  have either : (∃ entry ∈ body.zipIdx, entry.1.branchTarget? = some index ∨
      entry.1.endsBlock = true ∧ index = entry.2 + 1) ↔
        index ∈ targets body ∨ followsEnd body index = true := by
    rw [← targeted, ← behind, ← exists_or]
    exact exists_congr fun entry => and_or_left
  rw [leaders, mem_foldl_gather, first, either, ← and_or_left]

theorem leaders_sorted (body : List Instruction) : (leaders body).Pairwise (· < ·) := by
  refine sorted_foldl_gather ?_ _
  split
  · exact List.pairwise_singleton _ _
  · exact List.Pairwise.nil

theorem mem_pushNew {item other : Nat} {list : List Nat} :
    other ∈ pushNew list item ↔ other ∈ list ∨ other = item := by
  unfold pushNew
  grind

theorem nodup_pushNew {item : Nat} {list : List Nat} (distinct : list.Nodup) :
    (pushNew list item).Nodup := by
  unfold pushNew
  grind

theorem mem_leaders_of_branch {body : List Instruction} {index target : Nat}
    {instruction : Instruction} (found : body[index]? = some instruction)
    (branches : instruction.branchTarget? = some target) (inside : target < body.length) :
    target ∈ leaders body := by
  refine mem_leaders.mpr ⟨inside, .inr (.inl ?_)⟩
  exact List.mem_filterMap.mpr ⟨instruction, List.mem_of_getElem? found, branches⟩

theorem mem_leaders_after_end {body : List Instruction} {index : Nat} {instruction : Instruction}
    (found : body[index]? = some instruction) (ends : instruction.endsBlock = true)
    (inside : index + 1 < body.length) : index + 1 ∈ leaders body := by
  refine mem_leaders.mpr ⟨inside, .inr (.inr ?_)⟩
  simp [followsEnd, found, ends]

/-- The position of the last leader at or before an index. -/
def blockAt (leaders : List Nat) (index : Nat) : Nat :=
  (leaders.filter (· ≤ index)).length - 1

theorem blockAt_cons_of_lt {start next index : Nat} {rest : List Nat}
    (sorted : (start :: next :: rest).Pairwise (· < ·)) (below : index < next) :
    blockAt (start :: next :: rest) index = 0 := by
  have later : (next :: rest).filter (· ≤ index) = [] := by
    rw [List.filter_eq_nil_iff]
    intro leader member
    have above : next ≤ leader := by
      rcases List.mem_cons.mp member with rfl | further
      · exact Nat.le_refl _
      · exact Nat.le_of_lt (List.rel_of_pairwise_cons sorted.of_cons further)
    simp only [decide_eq_true_eq, Nat.not_le]
    omega
  rw [blockAt, List.filter_cons, later]
  split <;> rfl

theorem blockAt_cons_of_le {start next index : Nat} {rest : List Nat}
    (sorted : (start :: next :: rest).Pairwise (· < ·)) (reached : next ≤ index) :
    blockAt (start :: next :: rest) index = blockAt (next :: rest) index + 1 := by
  have first : start < next := List.rel_of_pairwise_cons sorted List.mem_cons_self
  have both : start ≤ index := by omega
  simp [blockAt, both, reached]

/-- The range at the position of an index's block. -/
structure RangeOf (leaders : List Nat) (length index : Nat) (range : Nat × Nat) : Prop where
  starts : range.1 ≤ index
  stops : index < range.2
  next : ∀ leader ∈ leaders, index < leader → range.2 ≤ leader
  within : range.2 ≤ length

theorem ranges_blockAt {length index start : Nat} {rest : List Nat}
    (sorted : (start :: rest).Pairwise (· < ·)) (bounded : ∀ leader ∈ rest, leader < length)
    (reached : start ≤ index) (inside : index < length) :
    ∃ range, (ranges length (start :: rest))[blockAt (start :: rest) index]? = some range ∧
      RangeOf (start :: rest) length index range := by
  induction rest generalizing start with
  | nil =>
    refine ⟨(start, length), by simp [ranges, blockAt, reached], reached, inside, ?_, Nat.le_refl _⟩
    intro leader member later
    simp only [List.mem_singleton] at member
    omega
  | cons next rest ih =>
    have nextInside := bounded next List.mem_cons_self
    rcases Nat.lt_or_ge index next with below | beyond
    · rw [blockAt_cons_of_lt sorted below]
      refine ⟨(start, next), rfl, reached, below, ?_, Nat.le_of_lt nextInside⟩
      intro leader member later
      rcases List.mem_cons.mp member with rfl | further
      · omega
      rcases List.mem_cons.mp further with rfl | last
      · exact Nat.le_refl _
      · exact Nat.le_of_lt (List.rel_of_pairwise_cons sorted.of_cons last)
    · rw [blockAt_cons_of_le sorted beyond]
      obtain ⟨range, found, holds⟩ := ih sorted.of_cons
        (fun leader member => bounded leader (List.mem_cons_of_mem _ member)) beyond
      refine ⟨range, found, holds.starts, holds.stops, ?_, holds.within⟩
      intro leader member later
      rcases List.mem_cons.mp member with rfl | further
      · omega
      · exact holds.next leader further later

theorem getElem?_foldl_set {table places : List Nat} {index value : Nat} :
    (places.foldl (fun table place => table.set place value) table)[index]? =
      if index ∈ places then table[index]?.map fun _ => value else table[index]? := by
  induction places generalizing table with
  | nil => simp
  | cons place places ih =>
    rw [List.foldl_cons, ih, List.getElem?_set]
    grind

theorem getElem?_fill {table : List Nat} {entry : Block × Nat} {index : Nat} :
    (fill table entry)[index]? =
      if entry.1.start ≤ index ∧ index < entry.1.stop then table[index]?.map fun _ => entry.2
      else table[index]? := by
  rw [fill, getElem?_foldl_set]
  refine if_congr ?_ rfl rfl
  rw [List.mem_range'_1]
  omega

/-- The entries of a table from the first of some ranges on. -/
theorem getElem?_foldl_fill {length index start first : Nat} {rest table : List Nat}
    (sorted : (start :: rest).Pairwise (· < ·)) (bounded : ∀ leader ∈ rest, leader < length) :
    ((((ranges length (start :: rest)).map fun (start, stop) =>
      ({ start, stop } : Block)).zipIdx first).foldl fill table)[index]? =
      if start ≤ index ∧ index < length then
        table[index]?.map fun _ => first + blockAt (start :: rest) index
      else table[index]? := by
  induction rest generalizing start first table with
  | nil => simp [ranges, getElem?_fill, blockAt]; grind
  | cons next rest ih =>
    have inside := bounded next List.mem_cons_self
    have before : start < next := List.rel_of_pairwise_cons sorted List.mem_cons_self
    rw [ranges, List.map_cons, List.zipIdx_cons, List.foldl_cons,
      ih sorted.of_cons fun leader member => bounded leader (List.mem_cons_of_mem _ member),
      getElem?_fill]
    rcases Nat.lt_or_ge index next with below | beyond
    · rw [blockAt_cons_of_lt sorted below]
      grind
    · rw [blockAt_cons_of_le sorted beyond]
      grind

theorem leaders_eq_cons {body : List Instruction} (nonempty : 0 < body.length) :
    ∃ rest, leaders body = 0 :: rest := by
  have first : 0 ∈ leaders body := mem_leaders.mpr ⟨nonempty, .inl rfl⟩
  cases found : leaders body with
  | nil => simp [found] at first
  | cons start rest =>
    have sorted := leaders_sorted body
    rw [found] at first sorted
    rcases List.mem_cons.mp first with rfl | later
    · exact ⟨rest, rfl⟩
    · exact absurd (List.rel_of_pairwise_cons sorted later) (Nat.not_lt_zero _)

section Body

variable {body : List Instruction} {index : Nat}

theorem range_of_index (inside : index < body.length) :
    ∃ range, (ranges body.length (leaders body))[blockAt (leaders body) index]? = some range ∧
      RangeOf (leaders body) body.length index range := by
  obtain ⟨rest, split⟩ := leaders_eq_cons (Nat.zero_lt_of_lt inside)
  have sorted := leaders_sorted body
  have bounded : ∀ leader ∈ rest, leader < body.length := by
    intro leader member
    exact (mem_leaders.mp (by rw [split]; exact List.mem_cons_of_mem _ member)).1
  rw [split] at sorted ⊢
  exact ranges_blockAt sorted bounded (Nat.zero_le _) inside

theorem getElem?_indexBlocks (inside : index < body.length) :
    (indexBlocks body.length (cut body))[index]? = some (blockAt (leaders body) index) := by
  obtain ⟨rest, split⟩ := leaders_eq_cons (Nat.zero_lt_of_lt inside)
  have sorted := leaders_sorted body
  have bounded : ∀ leader ∈ rest, leader < body.length := by
    intro leader member
    exact (mem_leaders.mp (by rw [split]; exact List.mem_cons_of_mem _ member)).1
  rw [split] at sorted
  rw [indexBlocks, cut, split, getElem?_foldl_fill sorted bounded]
  simp [inside]

theorem length_indexBlocks (length : Nat) (blocks : List Block) :
    (indexBlocks length blocks).length = length := by
  have filled : ∀ (entries : List (Block × Nat)) table,
      (entries.foldl fill table).length = table.length := by
    intro entries
    induction entries with
    | nil => exact fun _ => rfl
    | cons entry entries ih =>
      intro table
      rw [List.foldl_cons, ih, fill]
      generalize List.range' _ _ = places
      induction places generalizing table with
      | nil => rfl
      | cons place places ih => rw [List.foldl_cons, ih, List.length_set]
  rw [indexBlocks, filled, List.length_replicate]

/-- The blocks of the instructions that control may go to from the one before an index. -/
def successorsAt (body : List Instruction) (leaders : List Nat) (stop : Nat) : List Nat :=
  match body[stop - 1]? with
  | none => []
  | some last =>
    let next := if last.fallsThrough && stop < body.length then [blockAt leaders stop] else []
    match last.branchTarget? with
    | none => next
    | some target =>
      if target < body.length then pushNew next (blockAt leaders target) else next

theorem successorsOf_eq (block : Block) :
    successorsOf body (indexBlocks body.length (cut body)) block =
      successorsAt body (leaders body) block.stop := by
  have told : ∀ {index}, index < body.length →
      (indexBlocks body.length (cut body)).getD index 0 = blockAt (leaders body) index := by
    intro index inside
    rw [List.getD_eq_getElem?_getD, getElem?_indexBlocks inside, Option.getD_some]
  unfold successorsOf successorsAt
  cases body[block.stop - 1]? with
  | none => rfl
  | some last => cases last.branchTarget? <;> grind

def allSuccessors (body : List Instruction) : List (List Nat) :=
  (ranges body.length (leaders body)).map fun range => successorsAt body (leaders body) range.2

/-- Those of the first blocks that have a given one among their successors. -/
def predecessorsAmong (body : List Instruction) (count block : Nat) : List Nat :=
  (List.range count).filter fun other =>
    (allSuccessors body)[other]?.any fun next => next.contains block

/-- The blocks when so many of them have been connected. -/
def linked (body : List Instruction) (count : Nat) : List Block :=
  (ranges body.length (leaders body)).zipIdx.map fun (range, block) =>
    { start := range.1
      stop := range.2
      successors := if block < count then successorsAt body (leaders body) range.2 else []
      predecessors := predecessorsAmong body count block }

theorem getElem?_foldl_link {id position : Nat} {successors : List Nat} {blocks : List Block} :
    (successors.foldl (link id) blocks)[position]? =
      blocks[position]?.map fun block =>
        if position ∈ successors then
          { block with predecessors := pushNew block.predecessors id }
        else block := by
  induction successors generalizing blocks with
  | nil => simp
  | cons successor successors ih =>
    -- Being pushed a second time changes nothing.
    have again : ∀ list, pushNew (pushNew list id) id = pushNew list id := by
      intro list
      unfold pushNew
      grind
    rw [List.foldl_cons, ih, link, List.getElem?_modify]
    cases blocks[position]? with
    | none => rfl
    | some block => grind

theorem getElem?_linked (count position : Nat) :
    (linked body count)[position]? =
      (ranges body.length (leaders body))[position]?.map fun range =>
        { start := range.1, stop := range.2
          successors := if position < count then successorsAt body (leaders body) range.2 else []
          predecessors := predecessorsAmong body count position } := by
  simp [linked, Function.comp_def]

theorem predecessorsAmong_succ {count : Nat} {range : Nat × Nat}
    (found : (ranges body.length (leaders body))[count]? = some range) (block : Nat) :
    predecessorsAmong body (count + 1) block =
      if block ∈ successorsAt body (leaders body) range.2 then
        pushNew (predecessorsAmong body count block) count
      else predecessorsAmong body count block := by
  have successors : (allSuccessors body)[count]? =
      some (successorsAt body (leaders body) range.2) := by
    rw [allSuccessors, List.getElem?_map, found, Option.map_some]
  have fresh : count ∉ predecessorsAmong body count block := by
    simp [predecessorsAmong]
  have grown : predecessorsAmong body (count + 1) block = predecessorsAmong body count block ++
      if block ∈ successorsAt body (leaders body) range.2 then [count] else [] := by
    simp [predecessorsAmong, List.range_succ, List.filter_singleton, successors,
      Bool.cond_eq_ite]
  rw [grown]
  split
  next => simp [pushNew, fresh]
  next => simp

theorem connect_linked {count : Nat} {range : Nat × Nat}
    (found : (ranges body.length (leaders body))[count]? = some range) :
    connect body (indexBlocks body.length (cut body)) (linked body count) count =
      linked body (count + 1) := by
  apply List.ext_getElem?
  intro position
  rw [connect, getElem?_linked, found, Option.map_some]
  simp only [successorsOf_eq]
  rw [List.getElem?_modify, getElem?_foldl_link, getElem?_linked, getElem?_linked]
  cases other : (ranges body.length (leaders body))[position]? with
  | none => rfl
  | some ranged =>
    simp only [Option.map_some, predecessorsAmong_succ found]
    rcases Nat.lt_trichotomy position count with before | rfl | after
    · grind
    · grind
    · grind

/-- Connecting the blocks one after another gives each all its successors and predecessors. -/
theorem blocks_ofBody (body : List Instruction) :
    (ofBody body).blocks = linked body (ranges body.length (leaders body)).length := by
  have start : cut body = linked body 0 := by
    apply List.ext_getElem?
    intro position
    simp [getElem?_linked, cut, predecessorsAmong]
  have connected : ∀ count ≤ (ranges body.length (leaders body)).length,
      (List.range count).foldl (connect body (indexBlocks body.length (cut body))) (cut body) =
        linked body count := by
    intro count
    induction count with
    | zero => exact fun _ => start
    | succ count ih =>
      intro within
      rw [List.range_succ, List.foldl_append, ih (Nat.le_of_succ_le within), List.foldl_cons,
        connect_linked (List.getElem?_eq_getElem within), List.foldl_nil]
  have length : (cut body).length = (ranges body.length (leaders body)).length := List.length_map _
  rw [ofBody, length, connected _ (Nat.le_refl _)]

/-- The blocks that have a given one among their successors. -/
def predecessorsOf (body : List Instruction) (block : Nat) : List Nat :=
  predecessorsAmong body (ranges body.length (leaders body)).length block

theorem getElem?_blocks (body : List Instruction) (position : Nat) :
    (ofBody body).blocks[position]? =
      (ranges body.length (leaders body))[position]?.map fun range =>
        { start := range.1, stop := range.2
          successors := successorsAt body (leaders body) range.2
          predecessors := predecessorsOf body position } := by
  rw [blocks_ofBody, getElem?_linked]
  apply Option.map_congr
  intro range found
  rw [if_pos (List.getElem?_eq_some_iff.mp found).1, predecessorsOf]

theorem blocks_ranges (body : List Instruction) :
    (ofBody body).blocks.map (fun block => (block.start, block.stop)) =
      ranges body.length (leaders body) := by
  apply List.ext_getElem?
  intro position
  rw [List.getElem?_map, getElem?_blocks, Option.map_map]
  exact Option.map_id'

theorem predecessors_ofBody {block : Nat} (present : block < (ofBody body).blocks.length) :
    (ofBody body).predecessors block = predecessorsOf body block := by
  have found := List.getElem?_eq_getElem present
  rw [getElem?_blocks] at found
  obtain ⟨range, ranged, made⟩ := Option.map_eq_some_iff.mp found
  rw [predecessors, getElem?_blocks, ranged]
  rfl

theorem blockOf?_ofBody (inside : index < body.length) :
    (ofBody body).blockOf? index = some (blockAt (leaders body) index) :=
  getElem?_indexBlocks inside

theorem lt_of_blockOf? {position : Nat} (found : (ofBody body).blockOf? index = some position) :
    index < body.length := by
  have inside := (List.getElem?_eq_some_iff.mp found).1
  rwa [ofBody, length_indexBlocks] at inside

theorem blockAt_lt_blocks (inside : index < body.length) :
    blockAt (leaders body) index < (ofBody body).blocks.length := by
  obtain ⟨range, found, -⟩ := range_of_index inside
  have bound := (List.getElem?_eq_some_iff.mp found).1
  rwa [← blocks_ranges, List.length_map] at bound

theorem blockAt_succ (inside : index < body.length) :
    blockAt (leaders body) (index + 1) =
      blockAt (leaders body) index + if index + 1 ∈ leaders body then 1 else 0 := by
  obtain ⟨rest, split⟩ := leaders_eq_cons (Nat.zero_lt_of_lt inside)
  have distinct : (leaders body).Nodup := (leaders_sorted body).imp Nat.ne_of_lt
  have counted : ((leaders body).filter (· ≤ index + 1)).length =
      ((leaders body).filter (· ≤ index)).length + (leaders body).count (index + 1) := by
    simp only [← List.countP_eq_length_filter, List.count]
    generalize leaders body = leaders
    induction leaders with
    | nil => rfl
    | cons leader leaders ih => grind
  have first : 0 < ((leaders body).filter (· ≤ index)).length := by
    simp [split]
  rw [blockAt, blockAt, counted]
  split
  next member =>
    rw [List.count_eq_one_of_mem distinct member]
    omega
  next absent =>
    rw [List.count_eq_zero_of_not_mem absent]
    omega

theorem blockAt_mono (leaders : List Nat) {first last : Nat} (ordered : first ≤ last) :
    blockAt leaders first ≤ blockAt leaders last := by
  apply Nat.sub_le_sub_right
  rw [← List.countP_eq_length_filter, ← List.countP_eq_length_filter]
  apply List.countP_mono_left
  intro leader _ below
  simp only [decide_eq_true_eq] at below ⊢
  omega

/-- A block ends with an instruction that ends blocks. -/
theorem stop_of_endsBlock {instruction : Instruction} {range : Nat × Nat}
    (found : body[index]? = some instruction) (ends : instruction.endsBlock = true)
    (holds : RangeOf (leaders body) body.length index range) : range.2 = index + 1 := by
  have inside := (List.getElem?_eq_some_iff.mp found).1
  have stops := holds.stops
  have within := holds.within
  rcases Nat.lt_or_ge (index + 1) body.length with more | last
  · have next := holds.next _ (mem_leaders_after_end found ends more) (Nat.lt_succ_self _)
    omega
  · omega

theorem blockAt_mem_successorsAt {instruction : Instruction} {target : Nat}
    (found : body[index]? = some instruction)
    (branches : instruction.branchTarget? = some target) (inside : target < body.length) :
    blockAt (leaders body) target ∈ successorsAt body (leaders body) (index + 1) := by
  simp only [successorsAt, Nat.add_sub_cancel, found, branches, if_pos inside]
  exact mem_pushNew.mpr (.inr rfl)

theorem mem_predecessors_of_stop {range : Nat × Nat} {block : Nat}
    (ranged : (ranges body.length (leaders body))[blockAt (leaders body) index]? = some range)
    (stop : range.2 = index + 1) (present : block < (ofBody body).blocks.length)
    (follows : block ∈ successorsAt body (leaders body) (index + 1)) :
    blockAt (leaders body) index ∈ (ofBody body).predecessors block := by
  have successors : (allSuccessors body)[blockAt (leaders body) index]? =
      some (successorsAt body (leaders body) (index + 1)) := by
    rw [allSuccessors, List.getElem?_map, ranged, Option.map_some, stop]
  rw [predecessors_ofBody present, predecessorsOf, predecessorsAmong, List.mem_filter,
    List.mem_range]
  refine ⟨(List.getElem?_eq_some_iff.mp ranged).1, ?_⟩
  simpa [successors] using follows

/-- A branch makes its block a predecessor of the block it goes to. -/
theorem blockAt_mem_predecessors {instruction : Instruction} {target : Nat}
    (found : body[index]? = some instruction)
    (branches : instruction.branchTarget? = some target) (inside : target < body.length) :
    blockAt (leaders body) index ∈
      (ofBody body).predecessors (blockAt (leaders body) target) := by
  have here := (List.getElem?_eq_some_iff.mp found).1
  obtain ⟨range, ranged, holds⟩ := range_of_index here
  have ends := Instruction.endsBlock_of_branchTarget? branches
  exact mem_predecessors_of_stop ranged (stop_of_endsBlock found ends holds)
    (blockAt_lt_blocks inside) (blockAt_mem_successorsAt found branches inside)

theorem blockAt_mem_predecessors_succ {instruction : Instruction}
    (found : body[index]? = some instruction) (falls : instruction.fallsThrough = true)
    (leads : index + 1 ∈ leaders body) :
    blockAt (leaders body) index ∈
      (ofBody body).predecessors (blockAt (leaders body) (index + 1)) := by
  have here := (List.getElem?_eq_some_iff.mp found).1
  have inside := (mem_leaders.mp leads).1
  obtain ⟨range, ranged, holds⟩ := range_of_index here
  have stop : range.2 = index + 1 := by
    have stops := holds.stops
    have next := holds.next _ leads (Nat.lt_succ_self _)
    omega
  refine mem_predecessors_of_stop ranged stop (blockAt_lt_blocks inside) ?_
  simp only [successorsAt, Nat.add_sub_cancel, found, falls, inside, decide_true, Bool.and_true,
    ↓reduceIte]
  split
  next => exact List.mem_singleton_self _
  next target _ =>
    split
    next => exact mem_pushNew.mpr (.inl (List.mem_singleton_self _))
    next => exact List.mem_singleton_self _

/-- A later block begins with a leader. -/
theorem exists_leader_of_blockAt_lt {last : Nat} (inside : last < body.length)
    (ordered : index ≤ last) (below : blockAt (leaders body) index < blockAt (leaders body) last) :
    ∃ before, index ≤ before ∧ before < last ∧ before + 1 ∈ leaders body ∧
      blockAt (leaders body) (before + 1) = blockAt (leaders body) last := by
  induction last with
  | zero =>
    obtain rfl := Nat.le_zero.mp ordered
    exact absurd below (Nat.lt_irrefl _)
  | succ last ih =>
    have here := Nat.lt_of_succ_lt inside
    have earlier : index ≤ last := by
      by_contra later
      obtain rfl : index = last + 1 := by omega
      exact absurd below (Nat.lt_irrefl _)
    by_cases leads : last + 1 ∈ leaders body
    · exact ⟨last, earlier, Nat.lt_succ_self last, leads, rfl⟩
    · have same : blockAt (leaders body) (last + 1) = blockAt (leaders body) last := by
        rw [blockAt_succ here, if_neg leads, Nat.add_zero]
      rw [same] at below ⊢
      obtain ⟨before, after, bound, isLeader, block⟩ := ih here earlier below
      exact ⟨before, after, Nat.lt_succ_of_lt bound, isLeader, block⟩

end Body

end FlowGraph

end Cartridge.Code
