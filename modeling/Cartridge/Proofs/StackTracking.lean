import Cartridge.Proofs.FlowGraph
import Cartridge.Proofs.Lowering

/-!
The tracked evaluation stack against the stacks that control can bring along.

The tracker goes through a body once and forgets what it knows wherever two ways may meet. What it
keeps is therefore on top of the stack on every way. The argument compares it at each step of
control: on to the next instruction the tracker takes the same step or forgets, and into the target
of a branch it only takes something along from the branch itself.
-/

namespace Cartridge

open Code (EvalStack Instruction StackTracker)
open Code.FlowGraph (blockAt leaders)

namespace Code.StackTracker

/-- A tracker in the block of an instruction, with nothing known about later blocks. -/
structure Stands (body : List Instruction) (index : Nat) (tracker : StackTracker) : Prop where
  graph : tracker.graph = .ofBody body
  entries : tracker.entries.length = (FlowGraph.ofBody body).blocks.length
  current : tracker.current? = some (blockAt (leaders body) index)
  later : ∀ block, blockAt (leaders body) index < block → tracker.stackOf block = []

section Tracker

variable {body : List Instruction} {index : Nat} {tracker : StackTracker}

theorem stack_of_current {block : Nat} (current : tracker.current? = some block) :
    tracker.stack = tracker.stackOf block := by
  rw [stack, current]
  rfl

theorem stackOf_set {entries : List EvalStack} {block : Nat} (present : block < entries.length)
    (stack : EvalStack) (other : Nat) :
    { tracker with entries := entries.set block stack }.stackOf other =
      if block = other then stack else { tracker with entries }.stackOf other := by
  by_cases same : block = other
  · subst same
    simp [stackOf, present]
  · simp [stackOf, same]

theorem Stands.setStack (stands : Stands body index tracker) (inside : index < body.length)
    (stack : EvalStack) :
    Stands body index (tracker.setStack stack) ∧ (tracker.setStack stack).stack = stack := by
  have present : blockAt (leaders body) index < tracker.entries.length := by
    rw [stands.entries]
    exact FlowGraph.blockAt_lt_blocks inside
  have set : tracker.setStack stack =
      { tracker with entries := tracker.entries.set (blockAt (leaders body) index) stack } := by
    rw [StackTracker.setStack, stands.current]
  have current : (tracker.setStack stack).current? = some (blockAt (leaders body) index) := by
    rw [set, stands.current]
  refine ⟨⟨by rw [set, stands.graph], by simp [set, stands.entries], current, ?_⟩, ?_⟩
  · intro block above
    rw [set, stackOf_set present, if_neg (Nat.ne_of_lt above)]
    exact stands.later block above
  · rw [stack_of_current current, set, stackOf_set present, if_pos rfl]

theorem stackOf_start (graph : FlowGraph) (block : Nat) : (start graph).stackOf block = [] := by
  simp only [stackOf, start, List.getElem?_replicate]
  split <;> rfl

theorem stands_enter_start (inside : index < body.length) :
    Stands body index ((start (.ofBody body)).enter index) ∧
      ((start (.ofBody body)).enter index).stack = [] := by
  have entered : (start (.ofBody body)).enter index =
      { start (.ofBody body) with current? := some (blockAt (leaders body) index) } := by
    simp only [enter, start, FlowGraph.blockOf?_ofBody inside]
    rfl
  rw [entered]
  refine ⟨⟨rfl, by simp [start], rfl, fun block _ => stackOf_start _ block⟩, ?_⟩
  exact stackOf_start _ _

/-- The tracker keeps its stack from one instruction to another. -/
def Carries (body : List Instruction) (last next : Nat) : Prop :=
  blockAt (leaders body) last = blockAt (leaders body) next ∨
    (FlowGraph.ofBody body).predecessors (blockAt (leaders body) next) =
      [blockAt (leaders body) last]

theorem Stands.carry (stands : Stands body index tracker) {block : Nat}
    (above : blockAt (leaders body) index < block)
    (present : block < (FlowGraph.ofBody body).blocks.length) :
    (tracker.carry (blockAt (leaders body) index) block).entries.length =
      (FlowGraph.ofBody body).blocks.length ∧
    (tracker.carry (blockAt (leaders body) index) block).stackOf block = tracker.stack ∧
    ∀ further, block < further →
      (tracker.carry (blockAt (leaders body) index) block).stackOf further = [] := by
  have here : blockAt (leaders body) index < tracker.entries.length := by
    rw [stands.entries]
    exact Nat.lt_trans above present
  have there : block < (tracker.entries.set (blockAt (leaders body) index) []).length := by
    rw [List.length_set, stands.entries]
    exact present
  refine ⟨by simp [StackTracker.carry, stands.entries], ?_, ?_⟩
  · rw [StackTracker.carry, stackOf_set there, if_pos rfl, stackOf_set here,
      if_neg (Nat.ne_of_lt above), stands.later block above, List.append_nil,
      stack_of_current stands.current]
  · intro further beyond
    rw [StackTracker.carry, stackOf_set there, if_neg (Nat.ne_of_lt beyond), stackOf_set here,
      if_neg (Nat.ne_of_lt (Nat.lt_trans above beyond))]
    exact stands.later further (Nat.lt_trans above beyond)

theorem Stands.enter {next : Nat} (stands : Stands body index tracker) (after : index ≤ next)
    (inside : next < body.length) :
    Stands body next (tracker.enter next) ∧
      (Carries body index next → (tracker.enter next).stack = tracker.stack) ∧
      (¬Carries body index next → (tracker.enter next).stack = []) := by
  have entered : tracker.enter next = tracker.enterBlock (blockAt (leaders body) next) := by
    rw [StackTracker.enter, stands.graph, FlowGraph.blockOf?_ofBody inside]
  rw [entered, enterBlock, stands.current]
  by_cases same : blockAt (leaders body) index = blockAt (leaders body) next
  · dsimp only
    rw [if_pos same]
    exact ⟨⟨stands.graph, stands.entries, same ▸ stands.current, same ▸ stands.later⟩,
      fun _ => rfl, fun drops => absurd (.inl same) drops⟩
  · have above : blockAt (leaders body) index < blockAt (leaders body) next :=
      Nat.lt_of_le_of_ne (FlowGraph.blockAt_mono _ after) same
    rw [stands.graph]
    simp only [if_neg same]
    split
    next sole =>
      obtain ⟨entries, carried, later⟩ := stands.carry above (FlowGraph.blockAt_lt_blocks inside)
      exact ⟨⟨stands.graph, entries, rfl, later⟩, fun _ => carried, fun drops =>
        absurd (.inr sole) drops⟩
    next shared =>
      refine ⟨⟨rfl, stands.entries, rfl, ?_⟩, ?_, fun _ => stands.later _ above⟩
      · exact fun block beyond => stands.later block (Nat.lt_trans above beyond)
      · rintro (inner | sole)
        · exact absurd inner same
        · exact absurd sole shared

/-- Only what one instruction leaves can be kept at a target of branches, and then that instruction
is the branch. Between the two there may be constants that a call takes in. -/
theorem Carries.branch {instruction : Instruction} {source last target next : Nat}
    (keeps : Carries body last next) (inside : next < body.length)
    (constants : ∀ index, last < index → index < next →
      ∃ instruction, body[index]? = some instruction ∧ instruction.opcode = .loadConstant)
    (found : body[source]? = some instruction)
    (branches : instruction.branchTarget? = some target) (after : last < target)
    (within : target ≤ next) : source = last := by
  have here := (List.getElem?_eq_some_iff.mp found).1
  have leads := FlowGraph.mem_leaders_of_branch found branches (Nat.lt_of_le_of_lt within inside)
  have above : blockAt (leaders body) last < blockAt (leaders body) target := by
    obtain ⟨before, rfl⟩ := Nat.exists_eq_succ_of_ne_zero (Nat.ne_zero_of_lt after)
    rw [Nat.succ_eq_add_one, FlowGraph.blockAt_succ (by omega), if_pos leads]
    exact Nat.lt_succ_of_le (FlowGraph.blockAt_mono _ (Nat.le_of_lt_succ after))
  have onward := FlowGraph.blockAt_mono (leaders body) within
  have sole := keeps.resolve_left (Nat.ne_of_lt (Nat.lt_of_lt_of_le above onward))
  -- Another block in between would go on into the last one too.
  have lastBlock : blockAt (leaders body) target = blockAt (leaders body) next := by
    by_contra apart
    obtain ⟨before, low, high, isLeader, same⟩ :=
      FlowGraph.exists_leader_of_blockAt_lt inside within (Nat.lt_of_le_of_ne onward apart)
    obtain ⟨other, foundOther, loads⟩ := constants before (by omega) high
    have falls : other.fallsThrough = true := by
      rw [Instruction.fallsThrough, loads]
      rfl
    have precedes := FlowGraph.blockAt_mem_predecessors_succ foundOther falls isLeader
    rw [same, sole, List.mem_singleton] at precedes
    have ordered := FlowGraph.blockAt_mono (leaders body) low
    omega
  have precedes := FlowGraph.blockAt_mem_predecessors found branches
    (Nat.lt_of_le_of_lt within inside)
  rw [lastBlock, sole, List.mem_singleton] at precedes
  have ends := Instruction.endsBlock_of_branchTarget? branches
  have step := FlowGraph.blockAt_succ here
  rcases Nat.lt_trichotomy source last with before | same | later
  · have more : source + 1 < body.length := by omega
    rw [if_pos (FlowGraph.mem_leaders_after_end found ends more)] at step
    have ordered := FlowGraph.blockAt_mono (leaders body) before
    simp only [Nat.succ_eq_add_one] at ordered
    omega
  · exact same
  · rcases Nat.lt_or_ge source target with between | beyond
    · obtain ⟨same, foundSame, loads⟩ := constants source later (by omega)
      obtain rfl := Option.some.inj (found.symm.trans foundSame)
      simp [Instruction.branchTarget?, loads] at branches
    · have ordered := FlowGraph.blockAt_mono (leaders body) beyond
      omega

end Tracker

end Code.StackTracker

namespace Emit

open Program (Body Fault Subroutine)

structure Effect where
  pops : Nat := 0
  /-- The types it pushes for those it popped, both topmost first. -/
  pushes : EvalStack → EvalStack := fun _ => []

def Effect.apply (effect : Effect) (stack : EvalStack) : EvalStack :=
  effect.pushes (stack.take effect.pops) ++ stack.drop effect.pops

/-- A call takes its arguments from the stack and leaves its result there, unless an intrinsic
stands for it. -/
def callEffect (callee : Subroutine) : Effect :=
  match callee.intrinsic? with
  | some (.storeToSymbol _ true) => {}
  | some (.storeToSymbol _ false) => { pops := 1 }
  | some (.loadToRegister _) => { pops := 1 }
  | some (.loadFromSymbol _) => { pushes := fun _ => [callee.returns] }
  | _ =>
    { pops := callee.parameters.length
      pushes := fun _ => if callee.returns.isVoid then [] else [callee.returns] }

def Site.effect (site : Site) (instruction : Instruction) : Effect :=
  match instruction.opcode with
  | .nop | .branch | .other _ => {}
  | .loadConstant => { pushes := fun _ => [.byte] }
  | .loadLocal | .loadArgument | .loadStaticField =>
    { pushes := fun _ => ((site.slot? instruction.operand).map (·.2)).toList }
  | .storeLocal | .storeArgument | .storeStaticField => { pops := 1 }
  | .loadStaticFieldAddress =>
    { pushes := fun _ => ((site.slot? instruction.operand).map (.pointer ·.2 true)).toList }
  | .loadField =>
    { pops := 1, pushes := fun _ => ((site.member? instruction.operand).map (·.1)).toList }
  | .loadFieldAddress =>
    { pops := 1
      pushes := fun _ => ((site.member? instruction.operand).map (.pointer ·.1 true)).toList }
  | .storeField => { pops := 2 }
  | .initObject | .pop | .branchIfTrue | .branchIfFalse => { pops := 1 }
  | .add | .subtract => { pops := 2, pushes := fun _ => [.byte] }
  | .compareGreater | .compareEqual | .compareLess => { pops := 2, pushes := fun _ => [.bool] }
  | .convert => { pops := 1, pushes := fun _ => [.byte] }
  | .duplicate => { pops := 1, pushes := fun popped => popped ++ popped }
  | .call => ((instruction.callee?.bind site.types.subroutine?).map callEffect).getD {}
  | .ret => if site.subroutine.returns.size = 0 then {} else { pops := 1 }

def GoesTo (instruction : Instruction) (index next : Nat) : Prop :=
  instruction.fallsThrough = true ∧ next = index + 1 ∨ instruction.branchTarget? = some next

/-- An instruction that control can reach, with the types that are on the stack then. -/
inductive Path (site : Site) : Nat → EvalStack → Prop
  | start : Path site 0 []
  | step {index next stack instruction} (path : Path site index stack)
    (found : site.subroutine.instructions[index]? = some instruction)
    (goes : GoesTo instruction index next) : Path site next ((site.effect instruction).apply stack)

theorem Effect.apply_prefix {effect : Effect} {tracked stack : EvalStack}
    (top : tracked <+: stack) (enough : effect.pops ≤ tracked.length) :
    effect.apply tracked <+: effect.apply stack := by
  obtain ⟨rest, rfl⟩ := top
  rw [apply, apply, List.take_append_of_le_length enough, List.drop_append_of_le_length enough,
    ← List.append_assoc]
  exact List.prefix_append _ _

section Effects

variable {site : Site} {index labels : Nat} {stack : EvalStack} {callee : Subroutine}

theorem storeArguments_stack {parameters : List (ValueType × Nat)}
    {passed : List Asm.Line × EvalStack}
    (stored : site.storeArguments index callee parameters stack = .ok passed) :
    parameters.length ≤ stack.length ∧ passed.2 = stack.drop parameters.length := by
  induction parameters generalizing stack passed with
  | nil =>
    obtain rfl := Except.ok.inj stored
    simp
  | cons parameter parameters ih =>
    obtain ⟨type, n⟩ := parameter
    obtain ⟨⟨top, rest⟩, popped, next⟩ := bind_eq_ok.mp stored
    obtain rfl := Site.pop_eq_ok.mp popped
    simp only at next
    split at next
    next => contradiction
    next allocation found =>
      obtain ⟨⟨code, below⟩, storedRest, made⟩ := bind_eq_ok.mp next
      obtain rfl := pure_eq_ok.mp made
      obtain ⟨enough, same⟩ := ih storedRest
      exact ⟨by simpa using enough, by simpa using same⟩

theorem transfer_stack {fragment : Fragment}
    (transferred : site.transfer labels stack callee = .ok fragment) : fragment.stack = stack := by
  unfold Site.transfer at transferred
  split at transferred
  · split at transferred
    · contradiction
    · obtain rfl := Except.ok.inj transferred
      rfl
  · obtain rfl := Except.ok.inj transferred
    rfl

theorem callBody_stack {fragment : Fragment}
    (called : site.callBody index labels stack callee = .ok fragment) :
    callee.parameters.length ≤ stack.length ∧
      fragment.stack = (if callee.returns.isVoid then [] else [callee.returns]) ++
        stack.drop callee.parameters.length := by
  unfold Site.callBody at called
  split at called
  next => contradiction
  next narrow =>
    obtain ⟨⟨passing, below⟩, stored, next⟩ := bind_eq_ok.mp called
    obtain ⟨enough, same⟩ := storeArguments_stack stored
    simp only [List.length_reverse, List.length_zipIdx] at enough same
    obtain ⟨transferred, moved, last⟩ := bind_eq_ok.mp next
    have kept := transfer_stack moved
    refine ⟨enough, ?_⟩
    split at last
    next void =>
      obtain rfl := pure_eq_ok.mp last
      rw [if_pos void, List.nil_append, ← same]
      exact kept
    next result =>
      obtain rfl := pure_eq_ok.mp last
      rw [if_neg result, ← same]
      rfl

theorem call_stack {fragment : Fragment}
    (unexecuted : ∀ evaluator, callee.intrinsic? ≠ some (.compileTime evaluator))
    (called : site.call index labels stack callee = .ok fragment) :
    (callEffect callee).pops ≤ stack.length ∧
      fragment.stack = (callEffect callee).apply stack := by
  unfold Site.call at called
  unfold callEffect Effect.apply
  split at called
  next symbol strobes =>
    obtain rfl := Except.ok.inj called
    simp [strobes]
  next symbol stores =>
    obtain ⟨rest, popped, made⟩ := bind_eq_ok.mp called
    obtain ⟨top, rfl, -⟩ := Site.popByte_eq_ok.mp popped
    obtain rfl := pure_eq_ok.mp made
    simp [stores]
  next register transfers =>
    obtain ⟨rest, popped, made⟩ := bind_eq_ok.mp called
    obtain ⟨top, rfl, -⟩ := Site.popByte_eq_ok.mp popped
    obtain rfl := pure_eq_ok.mp made
    simp [transfers]
  next symbol loads =>
    obtain rfl := Except.ok.inj called
    simp [loads]
  next evaluator executes => exact absurd executes (unexecuted evaluator)
  next strobes stores transfers loads executes =>
    have passed := callBody_stack called
    split <;> simp_all

theorem executedCallee?_eq_none {id : SubroutineId}
    (unexecuted : executedCallee? site.types ⟨.call, .method id⟩ = none)
    (found : site.types.subroutine? id = some callee) (evaluator : Source.Evaluator) :
    callee.intrinsic? ≠ some (.compileTime evaluator) := by
  intro executes
  simp [executedCallee?, Code.Instruction.callee?, found, executes] at unexecuted

theorem lowered_stack {instruction : Instruction} {fragment : Fragment}
    (unexecuted : executedCallee? site.types instruction = none)
    (lowered : site.Lowered index labels instruction stack fragment) :
    (site.effect instruction).pops ≤ stack.length ∧
      fragment.stack = (site.effect instruction).apply stack := by
  cases lowered with
  | load loads slot =>
    simp only [List.mem_cons, List.not_mem_nil, or_false] at loads
    rcases loads with rfl | rfl | rfl <;> simp [Site.effect, Effect.apply, slot]
  | store stores slot =>
    simp only [List.mem_cons, List.not_mem_nil, or_false] at stores
    rcases stores with rfl | rfl | rfl <;> simp [Site.effect, Effect.apply]
  | staticAddress slot near => simp [Site.effect, Effect.apply, slot]
  | loadField member reach address => simp [Site.effect, Effect.apply, member]
  | fieldAddress member reach address => simp [Site.effect, Effect.apply, member]
  | arithmetic kind byte secondByte =>
    simp only [List.mem_cons, List.not_mem_nil, or_false, Prod.mk.injEq] at kind
    rcases kind with ⟨rfl, -⟩ | ⟨rfl, -⟩ <;> simp [Site.effect, Effect.apply]
  | compare kind byte secondByte =>
    simp only [List.mem_cons, List.not_mem_nil, or_false, Prod.mk.injEq] at kind
    rcases kind with ⟨rfl, -⟩ | ⟨rfl, -⟩ | ⟨rfl, -⟩ <;> simp [Site.effect, Effect.apply]
  | branchOn kind byte =>
    simp only [List.mem_cons, List.not_mem_nil, or_false, Prod.mk.injEq] at kind
    rcases kind with ⟨rfl, -⟩ | ⟨rfl, -⟩ <;> simp [Site.effect, Effect.apply]
  | call found made =>
    have called := call_stack (executedCallee?_eq_none unexecuted found) made
    simpa [Site.effect, Code.Instruction.callee?, found] using called
  | ret empty => simp [Site.effect, Effect.apply, empty]
  | retByte byte => simp [Site.effect, Effect.apply, byte]
  | _ => simp [Site.effect, Effect.apply]

end Effects

namespace Site

variable {site : Site}

/-- What has been compiled of a body when an instruction is about to be. -/
def progressBefore (site : Site) (index : Nat) : Except Fault Progress := do
  let actions ← plan site.types site.subroutine
  (actions.takeWhile fun action => action.anchor < index).foldlM
    (site.advance (Code.targets site.subroutine.instructions))
    { tracker := StackTracker.start site.subroutine.flowGraph }

theorem progressBefore_eq (unexecuted : site.ExecutesNone) {index : Nat}
    (inside : index ≤ site.subroutine.instructions.length) :
    site.progressBefore index = site.progress index := by
  have taken : ((List.range site.subroutine.instructions.length).map Action.compile).takeWhile
      (fun action => action.anchor < index) = (List.range index).map Action.compile := by
    obtain ⟨more, split⟩ := Nat.exists_eq_add_of_le inside
    rw [split, List.range_add, List.map_append, List.takeWhile_append_of_pos]
    · cases more <;> simp [List.range_succ_eq_map, Action.anchor]
    · intro action member
      obtain ⟨earlier, below, rfl⟩ := List.mem_map.mp member
      exact decide_eq_true (List.mem_range.mp below)
  rw [progressBefore, plan_of_executesNone unexecuted, progress, ← taken]
  rfl

theorem stands_progress {index : Nat} {before : Progress}
    (reached : site.progress index = .ok before)
    (inside : index < site.subroutine.instructions.length) :
    StackTracker.Stands site.subroutine.instructions index (before.tracker.enter index) := by
  induction index generalizing before with
  | zero =>
    obtain rfl := Except.ok.inj reached
    exact (StackTracker.stands_enter_start inside).1
  | succ index ih =>
    have here := Nat.lt_of_succ_lt inside
    obtain ⟨earlier, fragment, found, -, rfl⟩ :=
      progress_succ_eq_ok (List.getElem?_eq_getElem here) reached
    exact (((ih found here).setStack here fragment.stack).1.enter (Nat.le_succ index) inside).1

theorem tracked_zero {before : Progress} (reached : site.progress 0 = .ok before)
    (inside : 0 < site.subroutine.instructions.length) : (before.tracker.enter 0).stack = [] := by
  obtain rfl := Except.ok.inj reached
  exact (StackTracker.stands_enter_start inside).2

theorem tracked_succ {index : Nat} {before : Progress} {fragment : Fragment}
    (reached : site.progress index = .ok before)
    (inside : index + 1 < site.subroutine.instructions.length) :
    let after := Progress.after site index before fragment
    (StackTracker.Carries site.subroutine.instructions index (index + 1) →
      (after.tracker.enter (index + 1)).stack = fragment.stack) ∧
    (¬StackTracker.Carries site.subroutine.instructions index (index + 1) →
      (after.tracker.enter (index + 1)).stack = []) := by
  intro after
  have here := Nat.lt_of_succ_lt inside
  obtain ⟨stands, stack⟩ := (stands_progress reached here).setStack here fragment.stack
  obtain ⟨-, keeps, drops⟩ := stands.enter (Nat.le_succ index) inside
  exact ⟨fun kept => (keeps kept).trans stack, drops⟩

/-- What the tracker knows at an instruction is on top of the stack, however control got there. -/
theorem tracked_prefix (unexecuted : site.ExecutesNone) {body : Body}
    (compiled : site.compile = .ok body) {index : Nat} {stack : EvalStack}
    (path : Path site index stack) (inside : index < site.subroutine.instructions.length) :
    ∃ before, site.progress index = .ok before ∧ (before.tracker.enter index).stack <+: stack := by
  induction path with
  | start =>
    refine ⟨{ tracker := .start site.subroutine.flowGraph }, rfl, ?_⟩
    rewrite [tracked_zero rfl inside]
    exact List.nil_prefix
  | @step index next stack instruction path found goes ih =>
    obtain ⟨before, reached, top⟩ := ih (List.getElem?_eq_some_iff.mp found).1
    obtain ⟨same, fragment, reachedAgain, lowered, advanced⟩ :=
      step_of_compile unexecuted compiled found
    obtain rfl := Except.ok.inj (reachedAgain.symm.trans reached)
    have effect := lowered_stack (unexecuted instruction (List.mem_of_getElem? found))
      (lowered_of_step lowered)
    have onTop : fragment.stack <+: (site.effect instruction).apply stack := by
      rw [effect.2]
      exact Effect.apply_prefix top effect.1
    obtain ⟨done, complete, -⟩ := (compile_eq_ok unexecuted).mp compiled
    obtain ⟨entry, entered⟩ := progress_of_le complete (Nat.le_of_lt inside)
    refine ⟨entry, entered, ?_⟩
    cases next with
    | zero =>
      rw [tracked_zero entered inside]
      exact List.nil_prefix
    | succ last =>
      by_cases keeps : StackTracker.Carries site.subroutine.instructions last (last + 1)
      · have source : index = last := by
          rcases goes with ⟨-, next⟩ | branches
          · exact (Nat.succ.inj next).symm
          · exact keeps.branch inside (fun index low high => by omega) found branches
              (Nat.lt_succ_self last) (Nat.le_refl _)
        subst source
        obtain rfl := Except.ok.inj (advanced.symm.trans entered)
        rw [(tracked_succ reached inside).1 keeps]
        exact onTop
      · have here := Nat.lt_of_succ_lt inside
        obtain ⟨earlier, other, found, -, rfl⟩ :=
          progress_succ_eq_ok (List.getElem?_eq_getElem here) entered
        rw [(tracked_succ found inside).2 keeps]
        exact List.nil_prefix

/-- On every way through a body that was compiled, the stack that an instruction was compiled for
is on top of the actual one, so that nothing is ever popped from an empty stack. -/
theorem tracked_stack_sound (unexecuted : site.ExecutesNone) {body : Body}
    (compiled : site.compile = .ok body) {index : Nat} {stack : EvalStack}
    {instruction : Instruction} (path : Path site index stack)
    (found : site.subroutine.instructions[index]? = some instruction) :
    ∃ before fragment, site.progressBefore index = .ok before ∧
      site.step index instruction before.labels (before.tracker.enter index).stack = .ok fragment ∧
      fragment.stack = (site.effect instruction).apply (before.tracker.enter index).stack ∧
      (before.tracker.enter index).stack <+: stack ∧
      (site.effect instruction).pops ≤ stack.length := by
  have inside := (List.getElem?_eq_some_iff.mp found).1
  obtain ⟨before, reached, top⟩ := tracked_prefix unexecuted compiled path inside
  obtain ⟨same, fragment, reachedAgain, stepped, -⟩ := step_of_compile unexecuted compiled found
  obtain rfl := Except.ok.inj (reachedAgain.symm.trans reached)
  obtain ⟨enough, effect⟩ := lowered_stack (unexecuted instruction (List.mem_of_getElem? found))
    (lowered_of_step stepped)
  refine ⟨_, fragment, ?_, stepped, effect, top, Nat.le_trans enough top.length_le⟩
  rw [progressBefore_eq unexecuted (Nat.le_of_lt inside), reached]

/-- A loop that leaves one more byte on the stack each time. -/
def fillLoop : Site :=
  { types := {}
    memory := { allocations := [] }
    subroutine := { id := ⟨0, 0⟩, name := "Fill", fullName := "Game.Fill", instructions :=
      [⟨.loadConstant, .constant 1⟩, ⟨.loadConstant, .constant 2⟩, ⟨.branchIfTrue, .target 0⟩,
        ⟨.pop, .empty⟩, ⟨.ret, .empty⟩] } }

/-- After two rounds there is more on the stack than the tracker knows of. -/
theorem tracked_stack_sound_fillLoop :
    fillLoop.ExecutesNone ∧ (∃ body, fillLoop.compile = .ok body) ∧
      Path fillLoop 3 [.byte, .byte] ∧
      ∃ before fragment, fillLoop.progressBefore 3 = .ok before ∧
        fillLoop.step 3 ⟨.pop, .empty⟩ before.labels (before.tracker.enter 3).stack =
          .ok fragment ∧
        fragment.stack =
          (fillLoop.effect ⟨.pop, .empty⟩).apply (before.tracker.enter 3).stack ∧
        (before.tracker.enter 3).stack <+: [.byte, .byte] ∧
        (fillLoop.effect ⟨.pop, .empty⟩).pops ≤ 2 := by
  have unexecuted : fillLoop.ExecutesNone := by
    simp [ExecutesNone, fillLoop, executedCallee?, Code.Instruction.callee?]
  have compiled : ∃ body, fillLoop.compile = .ok body := ⟨_, by with_unfolding_all rfl⟩
  -- Each round loads two bytes, and the branch takes one of them.
  have round : ∀ stack, Path fillLoop 0 stack → Path fillLoop 2 (.byte :: .byte :: stack) := by
    intro stack path
    have once : Path fillLoop 1 (.byte :: stack) := path.step rfl (.inl ⟨rfl, rfl⟩)
    exact once.step rfl (.inl ⟨rfl, rfl⟩)
  have again : Path fillLoop 0 [.byte] := (round [] .start).step rfl (.inr rfl)
  have behind : Path fillLoop 3 [.byte, .byte] :=
    (round [.byte] again).step rfl (.inl ⟨rfl, rfl⟩)
  obtain ⟨body, made⟩ := compiled
  exact ⟨unexecuted, ⟨body, made⟩, behind, tracked_stack_sound unexecuted made behind rfl⟩

end Site

end Emit

end Cartridge
