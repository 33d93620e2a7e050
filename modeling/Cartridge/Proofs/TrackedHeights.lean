import Cartridge.Proofs.FragmentHeights

/-!
Compiled bodies pull and look at nothing but what they have pushed.

Where the sizes of values fit, every line of a compiled body stands at least as high as the tracked
stack says: the tracker takes along into the target of branches only what they all bring, so that
the ways that meet at a label all come with as many bytes as are tracked there.
-/

namespace Cartridge.Emit

open Asm
open Code (EvalStack StackTracker)
open Program (Bodies Body Calls CallGraph Subroutine TypeTable)

namespace Site

/-- The tracked stack behind an action. -/
def stackAfter (site : Site) (action : Action) (stack : EvalStack) : EvalStack :=
  match action with
  | .compile index =>
    (site.subroutine.instructions[index]?.map fun instruction =>
      (site.effect instruction).apply stack).getD stack
  | .execute start call =>
    ((site.execute start call 0 stack).toOption.map Fragment.stack).getD stack

def suits (site : Site) (action : Action) (stack : EvalStack) : Bool :=
  match action with
  | .compile index => site.subroutine.instructions[index]?.all (site.covers · stack)
  | .execute _ _ => true

def suitsFrom (site : Site) (tracker : StackTracker) : List Action → Bool
  | [] => true
  | action :: actions =>
    let entered := tracker.enter action.anchor
    site.suits action entered.stack &&
      site.suitsFrom (entered.setStack (site.stackAfter action entered.stack)) actions

/-- Whether all instructions of a subroutine find values as large as they take them to be. -/
def isSized (site : Site) : Bool :=
  (plan site.types site.subroutine).toOption.all
    (site.suitsFrom (.start site.subroutine.flowGraph))

section Tracking

variable {site : Site} {index labels : Nat} {stack : EvalStack} {fragment : Fragment}
  {action : Action} {actions front rest : List Action}

theorem execute_stack (site : Site) (start call labels : Nat) (stack : EvalStack) :
    (site.execute start call labels stack).map Fragment.stack =
      (site.execute start call 0 stack).map Fragment.stack := by
  have evaluated : ∀ callee evaluator bytes,
      (site.evaluate call labels stack callee evaluator bytes).map Fragment.stack =
        (site.evaluate call 0 stack callee evaluator bytes).map Fragment.stack := by
    intro callee evaluator bytes
    unfold evaluate
    split
    next => split <;> rfl
    next => rfl
    next => rfl
  unfold execute
  simp only
  split
  next => rfl
  next =>
    split
    next => rfl
    next =>
      split
      next =>
        split
        next => rfl
        next =>
          split
          next => rfl
          next => exact evaluated _ _ _
      next => rfl

theorem perform_stack (planned : Planned site.types site.subroutine.instructions actions)
    (member : action ∈ actions) (performed : site.perform action labels stack = .ok fragment) :
    fragment.stack = site.stackAfter action stack := by
  cases action with
  | compile index =>
    obtain ⟨instruction, found, unexecuted⟩ := planned.compiled index member
    simp only [perform, found] at performed
    rw [stackAfter, found]
    exact (lowered_stack unexecuted (lowered_of_step performed)).2
  | execute start call =>
    have same := execute_stack site start call labels stack
    rw [show site.execute start call labels stack = .ok fragment from performed] at same
    rw [stackAfter]
    cases made : site.execute start call 0 stack with
    | error fault =>
      rw [made] at same
      contradiction
    | ok other =>
      rw [made] at same
      exact Except.ok.inj same

/-- The next action of a plan takes in the instructions up to its anchor, of which all before that
load constants. -/
structure Next (site : Site) (first : Nat) (action : Action) : Prop where
  ordered : first ≤ action.anchor
  inside : action.anchor < site.subroutine.instructions.length
  indices : action.indices = List.range' first (action.anchor + 1 - first)
  constants : ∀ index, first ≤ index → index < action.anchor →
    ∃ instruction, site.subroutine.instructions[index]? = some instruction ∧
      instruction.opcode = .loadConstant

theorem next_of_plan (made : plan site.types site.subroutine = .ok (front ++ action :: rest))
    {first : Nat} (taken : front.flatMap Action.indices = List.range first) :
    site.Next first action := by
  have planned := plan_eq_ok made
  have member : action ∈ front ++ action :: rest := by simp
  have indices := planned.indices
  rw [List.flatMap_append, List.flatMap_cons, taken] at indices
  have starts : ∀ index more, action.indices = index :: more → index = first := by
    intro index more same
    have here := congrArg (fun list => list[first]?) indices
    rw [same] at here
    simp only [List.getElem?_append_right (Nat.le_of_eq List.length_range), List.length_range,
      Nat.sub_self, List.cons_append, List.getElem?_cons_zero] at here
    obtain ⟨_, value⟩ := List.getElem?_eq_some_iff.mp here.symm
    rwa [List.getElem_range, eq_comm] at value
  cases action with
  | compile index =>
    obtain ⟨instruction, found⟩ := planned.found member
    obtain rfl := starts index [] rfl
    refine ⟨Nat.le_refl _, (List.getElem?_eq_some_iff.mp found).1, ?_, ?_⟩
    · simp [Action.anchor, Action.indices]
    · exact fun position low high => absurd low (Nat.not_le_of_lt high)
  | execute start call =>
    obtain ⟨group, isGroup, rfl, rfl⟩ := group_of_plan made member
    have ordered := group.ordered
    have spread : (Action.execute group.start group.call).indices =
        group.start :: List.range' (group.start + 1) (group.call - group.start) := by
      rw [Action.indices, Nat.sub_add_comm ordered, List.range'_succ]
    obtain rfl := starts _ _ spread
    exact ⟨ordered, isGroup.lt_length, rfl, isGroup.constants⟩

theorem Next.taken {first : Nat} (next : site.Next first action)
    (taken : front.flatMap Action.indices = List.range first) :
    (front ++ [action]).flatMap Action.indices = List.range (action.anchor + 1) := by
  have ordered := next.ordered
  have joined : List.range' 0 first ++ List.range' (0 + first) (action.anchor + 1 - first) =
      List.range' 0 (first + (action.anchor + 1 - first)) := List.range'_append_1
  rw [Nat.zero_add, Nat.add_sub_cancel' (Nat.le_succ_of_le ordered)] at joined
  rw [List.flatMap_append, List.flatMap_singleton, taken, next.indices, List.range_eq_range',
    List.range_eq_range', joined]

/-- What has been compiled before an instruction is what the actions before it make. -/
theorem progressBefore_eq_foldlM (made : plan site.types site.subroutine = .ok (front ++ rest))
    {first : Nat} (taken : front.flatMap Action.indices = List.range first) :
    site.progressBefore first =
      front.foldlM (site.advance (Code.targets site.subroutine.instructions))
        { tracker := .start site.subroutine.flowGraph } := by
  have anchored : ∀ action ∈ front ++ rest, action.anchor ∈ action.indices := by
    intro action member
    cases action with
    | compile index => exact List.mem_singleton_self index
    | execute start call =>
      obtain ⟨group, -, rfl, rfl⟩ := group_of_plan made member
      have ordered := group.ordered
      rw [Action.indices, Action.anchor, List.mem_range'_1]
      omega
  have earlier : ∀ action ∈ front, decide (action.anchor < first) = true := by
    intro action member
    have inside : action.anchor ∈ front.flatMap Action.indices :=
      List.mem_flatMap.mpr ⟨action, member, anchored action (List.mem_append_left _ member)⟩
    rw [taken] at inside
    exact decide_eq_true (List.mem_range.mp inside)
  have later : rest.takeWhile (fun action => decide (action.anchor < first)) = [] := by
    cases rest with
    | nil => rfl
    | cons action rest =>
      have next := next_of_plan made taken
      rw [List.takeWhile_cons, decide_eq_false (Nat.not_lt_of_le next.ordered)]
      rfl
  rw [progressBefore, made]
  change (List.takeWhile _ (front ++ rest)).foldlM _ _ = _
  rw [List.takeWhile_append_of_pos earlier, later, List.append_nil]

/-- The branches to a label, with the bytes that the tracker knows of behind each. -/
def Arrives (site : Site) (symbol : Symbol) (k : Nat) : Prop :=
  ∃ source target instruction after,
    site.subroutine.instructions[source]? = some instruction ∧
    instruction.branchTarget? = some target ∧ symbol = site.instructionLabel target ∧
    site.progressBefore (source + 1) = .ok after ∧ k = after.tracker.stack.bytes

/-- A tracker that has come as far as an instruction. -/
def Ready (site : Site) (first : Nat) (tracker : StackTracker) : Prop :=
  first = 0 ∧ tracker = .start site.subroutine.flowGraph ∨
    ∃ last, first = last + 1 ∧ tracker.Stands site.subroutine.instructions last

theorem Ready.enter {first : Nat} {before : Progress} (ready : site.Ready first before.tracker)
    (next : site.Next first action) (reached : site.progressBefore first = .ok before) :
    (before.tracker.enter action.anchor).Stands site.subroutine.instructions action.anchor ∧
      (before.tracker.enter action.anchor).stack.bytes ≤ before.tracker.stack.bytes ∧
      ∀ index ∈ action.indices, ∀ k, site.Arrives (site.instructionLabel index) k →
        (before.tracker.enter action.anchor).stack.bytes ≤ k := by
  rcases ready with ⟨-, fresh⟩ | ⟨last, rfl, stands⟩
  · obtain ⟨entered, empty⟩ := StackTracker.stands_enter_start next.inside
    rw [fresh, Subroutine.flowGraph, empty]
    exact ⟨entered, Nat.zero_le _, fun _ _ k _ => Nat.zero_le k⟩
  · obtain ⟨entered, keeps, drops⟩ := stands.enter (Nat.le_of_succ_le next.ordered) next.inside
    by_cases carries : StackTracker.Carries site.subroutine.instructions last action.anchor
    · rw [keeps carries]
      refine ⟨entered, Nat.le_refl _, ?_⟩
      rintro index member k
        ⟨source, target, instruction, after, found, branches, same, progress, rfl⟩
      rw [next.indices, List.mem_range'_1] at member
      rw [← instructionLabel_inj same] at branches
      -- Only the instruction that the stack is kept from can branch here.
      obtain rfl := carries.branch next.inside next.constants found branches (by omega) (by omega)
      obtain rfl := Except.ok.inj (reached.symm.trans progress)
      exact Nat.le_refl _
    · rw [drops carries]
      exact ⟨entered, Nat.zero_le _, fun _ _ k _ => Nat.zero_le k⟩

theorem instructionLabel_not_mem {stems : List Symbol} (known : site.subroutine.label ∈ stems)
    {low high : Nat} {symbols : List Symbol}
    (named : Named stems site.subroutine.label [] low high symbols) (index : Nat) :
    site.instructionLabel index ∉ symbols := by
  intro member
  let name : Name := { owner := site.subroutine.label, mark := .instruction index }
  have based : name.Over stems := ⟨known, trivial, rfl, by simp [name]⟩
  have within : name.Within site.subroutine.label [index] low low :=
    ⟨rfl, .inl ⟨index, List.mem_singleton_self index, rfl⟩⟩
  obtain ⟨ending, reads, here⟩ := within.ending based
  obtain ⟨_, readsToo, there⟩ := named.ending member
  rw [instructionLabel_eq] at readsToo
  obtain rfl := Option.some.inj (reads.symm.trans readsToo)
  exact here.absurd there (List.disjoint_nil_right _)

/-- What a body that is compiled has to know of those that it copies and loads from. -/
structure Given (site : Site) (stems : List Symbol) : Prop where
  copies : site.Copies stems
  narrow : site.types.LoadsBytes
  copied : ∀ instruction ∈ site.subroutine.instructions, ∀ id callee,
    instruction.callee? = some id → site.types.subroutine? id = some callee →
    ∀ labels, site.Copied labels callee

theorem climbs_performed {stems : List Symbol} (given : site.Given stems)
    (planned : Planned site.types site.subroutine.instructions actions) (member : action ∈ actions)
    (suits : site.suits action stack = true)
    (performed : site.perform action labels stack = .ok fragment)
    (jumps : ∀ instruction target,
      site.subroutine.instructions[action.anchor]? = some instruction →
      instruction.branchTarget? = some target →
      site.Arrives (site.instructionLabel target) fragment.stack.bytes) :
    Climbs site.Arrives stack.bytes fragment.code fragment.stack.bytes := by
  cases action with
  | compile index =>
    obtain ⟨instruction, found, unexecuted⟩ := planned.compiled index member
    simp only [perform, found] at performed
    have lowered := lowered_of_step performed
    have covered : site.covers instruction stack = true := by simpa [Site.suits, found] using suits
    refine climbs_lowered unexecuted given.narrow covered ?_
      (fun target => jumps instruction target found) ?_ lowered
    · intro id callee calls present
      exact given.copied instruction (List.mem_of_getElem? found) id callee calls present labels
    · rintro symbol k ⟨_, target, _, _, -, -, rfl, -⟩ own
      obtain ⟨-, named⟩ := named_lowered given.copies lowered
      exact instructionLabel_not_mem given.copies.own named target (List.mem_append_left _ own)
  | execute start call =>
    obtain ⟨id, callee, evaluator, bytes, -, -, -, -, -, made⟩ := execute_eq_ok performed
    exact climbs_of_rises (rises_evaluate made)

theorem rises_actionLabels {n m : Nat} (falls : m ≤ n)
    (meets : ∀ index ∈ action.indices, ∀ k, site.Arrives (site.instructionLabel index) k → m ≤ k)
    (targets : List Nat) :
    Rises site.Arrives false n (site.actionLabels targets action) m := by
  unfold actionLabels
  have labelled : ∀ indices : List Nat, (∀ index ∈ indices, index ∈ action.indices) → ∀ n, m ≤ n →
      Rises site.Arrives false n
        (indices.map fun index => .label (site.instructionLabel index)) m := by
    intro indices inside
    induction indices with
    | nil => exact fun n falls => .nil falls
    | cons index indices ih =>
      intro n falls
      refine .cons (.label falls (meets index (inside index List.mem_cons_self))) ?_
      exact ih (fun other member => inside other (List.mem_cons_of_mem _ member)) m (Nat.le_refl m)
  exact labelled _ (fun index member => (List.mem_filter.mp member).1) n falls

theorem climbs_foldlM {stems : List Symbol} (given : site.Given stems)
    (made : plan site.types site.subroutine = .ok (front ++ rest)) {first : Nat}
    (taken : front.flatMap Action.indices = List.range first) {before done : Progress}
    (reached : front.foldlM (site.advance (Code.targets site.subroutine.instructions))
      { tracker := .start site.subroutine.flowGraph } = .ok before)
    (folded : rest.foldlM (site.advance (Code.targets site.subroutine.instructions)) before =
      .ok done)
    (ready : site.Ready first before.tracker)
    (suits : site.suitsFrom before.tracker rest = true)
    (distinct : (definedLabels done.code).Nodup) :
    ∃ code, done.code = before.code ++ code ∧
      Climbs site.Arrives before.tracker.stack.bytes code 0 := by
  induction rest generalizing front first before with
  | nil =>
    obtain rfl := pure_eq_ok.mp folded
    exact ⟨[], (List.append_nil _).symm, climbs_of_rises (.nil (Nat.zero_le _))⟩
  | cons action rest ih =>
    have planned := plan_eq_ok made
    have next := next_of_plan made taken
    have progress := progressBefore_eq_foldlM made taken
    rw [List.foldlM_cons] at folded
    obtain ⟨between, advanced, onward⟩ := bind_eq_ok.mp folded
    obtain ⟨fragment, performed, built⟩ := bind_eq_ok.mp advanced
    obtain ⟨stands, falls, meets⟩ := ready.enter next (progress.trans reached)
    obtain ⟨standing, stack⟩ := stands.setStack next.inside fragment.stack
    obtain ⟨here, later⟩ := Bool.and_eq_true_iff.mp suits
    rw [← perform_stack planned (by simp) performed] at later
    have split : front ++ action :: rest = (front ++ [action]) ++ rest := by simp
    have takenNow := next.taken taken
    have reachedNow : (front ++ [action]).foldlM
        (site.advance (Code.targets site.subroutine.instructions))
        { tracker := .start site.subroutine.flowGraph } = .ok between := by
      rw [List.foldlM_append, reached]
      exact (bind_pure _).trans advanced
    rw [split] at made
    have progressNow := (progressBefore_eq_foldlM made takenNow).trans reachedNow
    obtain rfl := pure_eq_ok.mp built
    obtain ⟨code, whole, climbs⟩ := ih made takenNow reachedNow onward
      (.inr ⟨action.anchor, rfl, standing⟩) later
    rw [stack] at climbs
    have jumps : ∀ instruction target,
        site.subroutine.instructions[action.anchor]? = some instruction →
        instruction.branchTarget? = some target →
        site.Arrives (site.instructionLabel target) fragment.stack.bytes := by
      intro instruction target found branches
      exact ⟨action.anchor, target, instruction, _, found, branches, rfl, progressNow,
        by rw [stack]⟩
    have labelled := climbs_of_rises (rises_actionLabels falls meets
      (Code.targets site.subroutine.instructions))
    have performs := climbs_performed given planned (by simp) here performed jumps
    simp only [List.append_assoc] at whole
    refine ⟨_, whole, ?_⟩
    rw [whole, definedLabels_append, definedLabels_append, List.nodup_append] at distinct
    obtain ⟨-, distinct, -⟩ := distinct
    obtain ⟨-, behind, apart⟩ := List.nodup_append.mp distinct
    refine labelled.append (performs.append climbs ?_) ?_
    · rw [definedLabels_append] at behind
      exact fun symbol first second => (List.nodup_append.mp behind).2.2 _ first _ second rfl
    · exact fun symbol first second => apart _ first _ second rfl

/-- In a body that was compiled with sizes that fit, every line pulls and looks at nothing but what
the body has pushed. -/
theorem tidy_of_compile {stems : List Symbol} (given : site.Given stems) {body : Body}
    (compiled : site.compile = .ok body) (sized : site.isSized = true) : Tidy body.code := by
  obtain ⟨indices, low, high, _, -, distinct, -⟩ := named_of_compile given.copies compiled
  obtain ⟨actions, made, folded⟩ := bind_eq_ok.mp compiled
  obtain ⟨done, advanced, result⟩ := bind_eq_ok.mp folded
  obtain rfl := pure_eq_ok.mp result
  have suits : site.suitsFrom (.start site.subroutine.flowGraph) actions = true := by
    simpa [isSized, made, Except.toOption] using sized
  have planned : plan site.types site.subroutine = .ok ([] ++ actions) := made
  have none : ([] : List Action).flatMap Action.indices = List.range 0 := rfl
  obtain ⟨code, whole, own, -, rises⟩ := climbs_foldlM given planned none rfl advanced
    (.inl ⟨rfl, rfl⟩) suits (List.nodup_append.mp distinct).1
  rw [List.nil_append] at whole
  rw [whole]
  exact ⟨_, rises⟩

end Tracking

section Filled

variable {types : TypeTable} {memory : Memory.Map} {subroutine : Subroutine}

theorem slot?_withBodies (bodies : Bodies) (operand : Code.Operand) :
    slot? ⟨types.withBodies bodies, memory, subroutine⟩ operand =
      slot? ⟨types, memory, subroutine⟩ operand := by
  cases operand with
  | field id => simp only [slot?, Program.field?_withBodies]
  | _ => rfl

theorem member?_withBodies (bodies : Bodies) (operand : Code.Operand) :
    member? ⟨types.withBodies bodies, memory, subroutine⟩ operand =
      member? ⟨types, memory, subroutine⟩ operand := by
  cases operand with
  | field id => simp only [member?, Program.field?_withBodies]
  | _ => rfl

theorem callee_withBodies (bodies : Bodies) (instruction : Code.Instruction) :
    instruction.callee?.bind (types.withBodies bodies).subroutine? =
      (instruction.callee?.bind types.subroutine?).map (·.withBody bodies) := by
  cases instruction.callee? with
  | none => rfl
  | some id => exact Program.subroutine?_withBodies bodies id

theorem effect_withBodies (bodies : Bodies) (instruction : Code.Instruction) :
    effect ⟨types.withBodies bodies, memory, subroutine⟩ instruction =
      effect ⟨types, memory, subroutine⟩ instruction := by
  have same : callEffect ∘ (·.withBody bodies) = callEffect := rfl
  simp only [effect, slot?_withBodies, member?_withBodies, callee_withBodies, Option.map_map, same]

theorem covers_withBodies (bodies : Bodies) (instruction : Code.Instruction) (stack : EvalStack) :
    covers ⟨types.withBodies bodies, memory, subroutine⟩ instruction stack =
      covers ⟨types, memory, subroutine⟩ instruction stack := by
  simp only [covers, drawn, slot?_withBodies, member?_withBodies, callee_withBodies]
  cases instruction.callee?.bind types.subroutine? <;> rfl

theorem execute_withBodies (bodies : Bodies) (start call labels : Nat) (stack : EvalStack) :
    execute ⟨types.withBodies bodies, memory, subroutine⟩ start call labels stack =
      execute ⟨types, memory, subroutine⟩ start call labels stack := by
  simp only [execute, Program.subroutine?_withBodies]
  cases subroutine.instructions[call]?.bind Code.Instruction.callee? with
  | none => rfl
  | some id =>
    dsimp only
    cases types.subroutine? id <;> rfl

theorem plan_withBodies (bodies : Bodies) (subroutine : Subroutine) :
    plan (types.withBodies bodies) subroutine = plan types subroutine := by
  have grouped : groupAt? (types.withBodies bodies) subroutine = groupAt? types subroutine := by
    funext entry
    have executed : executedCallee? (types.withBodies bodies) entry.1 =
        (executedCallee? types entry.1).map (·.withBody bodies) := by
      simp only [executedCallee?, Option.bind_eq_bind, Program.subroutine?_withBodies]
      cases entry.1.callee? with
      | none => rfl
      | some id =>
        rw [Option.bind_some, Option.bind_some]
        cases types.subroutine? id with
        | none => rfl
        | some callee =>
          rw [Option.map_some, Option.bind_some, Option.bind_some, Subroutine.intrinsic?_withBody]
          split <;> rfl
    rw [groupAt?, executed, groupAt?]
    cases executedCallee? types entry.1 <;> rfl
  rw [plan, groups, grouped, plan, groups]

theorem isSized_withBodies (bodies : Bodies) :
    isSized ⟨types.withBodies bodies, memory, subroutine⟩ =
      isSized ⟨types, memory, subroutine⟩ := by
  have after : ∀ action stack,
      stackAfter ⟨types.withBodies bodies, memory, subroutine⟩ action stack =
        stackAfter ⟨types, memory, subroutine⟩ action stack := by
    intro action stack
    cases action with
    | compile index => simp only [stackAfter, effect_withBodies]
    | execute start call => simp only [stackAfter, execute_withBodies]
  have fit : ∀ action stack,
      suits ⟨types.withBodies bodies, memory, subroutine⟩ action stack =
        suits ⟨types, memory, subroutine⟩ action stack := by
    intro action stack
    cases action with
    | compile index => simp only [suits, covers_withBodies]
    | execute start call => rfl
  have all : ∀ actions tracker,
      suitsFrom ⟨types.withBodies bodies, memory, subroutine⟩ tracker actions =
        suitsFrom ⟨types, memory, subroutine⟩ tracker actions := by
    intro actions
    induction actions with
    | nil => exact fun tracker => rfl
    | cons action actions ih =>
      intro tracker
      simp only [suitsFrom, after, fit, ih]
  simp only [isSized, plan_withBodies]
  congr 1
  funext actions
  exact all actions _

theorem isSized_withBody (bodies : Bodies) :
    isSized ⟨types, memory, subroutine.withBody bodies⟩ = isSized ⟨types, memory, subroutine⟩ := by
  have all : ∀ actions tracker,
      suitsFrom ⟨types, memory, subroutine.withBody bodies⟩ tracker actions =
        suitsFrom ⟨types, memory, subroutine⟩ tracker actions := by
    intro actions
    induction actions with
    | nil => exact fun tracker => rfl
    | cons action actions ih =>
      intro tracker
      rw [suitsFrom, suitsFrom, ih]
      cases action <;> rfl
  have same := funext fun actions => all actions (.start subroutine.flowGraph)
  exact congrArg (Option.all · (plan types subroutine).toOption) same

end Filled

end Site

section Bodies

variable {types : TypeTable} {memory : Memory.Map} {library : Library} {optimize : Bool}
  {done : List SubroutineId} {bodies : Bodies} {subroutine : Subroutine}

/-- A subroutine whose code pulls what it has pushed, if its sizes fit where it is compiled, or in
the library. -/
structure Fits (types : TypeTable) (memory : Memory.Map) (library : Library)
    (subroutine : Subroutine) : Prop where
  sized : subroutine.walksBody = true → Site.isSized ⟨types, memory, subroutine⟩ = true
  provided : ∀ implementation code,
    subroutine.intrinsic? = some (.useProvided implementation) →
    library.get? implementation = some code → Tidy code

theorem fits_withBodies
    (fits : Fits (types.withBodies bodies) memory library (subroutine.withBody bodies)) :
    Fits types memory library subroutine := by
  refine ⟨fun walked => ?_, fits.provided⟩
  have sized := fits.sized walked
  rw [Site.isSized_withBodies, Site.isSized_withBody] at sized
  exact sized

theorem tidy_of_compiles (wellFormed : types.WellFormed) (narrow : types.LoadsBytes)
    (ran : Compiles types memory library optimize done bodies) {fitting : SubroutineId → Prop}
    (onward : ∀ caller id callee, fitting caller → Calls types caller id →
      types.subroutine? id = some callee → callee.intrinsic? = some .alwaysInline → fitting id)
    (fit : ∀ id subroutine, fitting id → types.subroutine? id = some subroutine →
      Fits types memory library subroutine)
    {id : SubroutineId} {body : Body} (found : types.subroutine? id = some subroutine)
    (present : bodies id = some body) (fits : fitting id) : Tidy body.code := by
  have named := wellFormed.subroutineId id subroutine found
  have known : ∀ id ∈ done, ∀ subroutine, types.subroutine? id = some subroutine →
      subroutine.replacesCall = false →
      subroutine.label ∈ types.subroutines.map Subroutine.label := by
    intro id _ subroutine found _
    exact List.mem_map_of_mem (Program.mem_subroutines.mpr ⟨id, found⟩)
  refine ran.forall_body_within (motive := fun subroutine body =>
    fitting subroutine.id → Tidy body.code) wellFormed (fun _ _ present => present) ?_ found present
    (named.symm ▸ fits)
  intro subroutine body earlier found member kept within before made fits
  have suits := fit subroutine.id subroutine fits found
  rcases subroutineBody_eq_ok kept made with
    ⟨implementation, marked, code, provided, rfl⟩ | ⟨-, rfl⟩ | ⟨walked, compiled, done, rfl⟩
  · exact suits.provided implementation code marked provided
  · exact ⟨fun _ _ => False, .cons (.ret rfl) (.nil (Nat.le_refl 0))⟩
  · have sized : Site.isSized ⟨types.withBodies earlier, memory, subroutine⟩ = true := by
      rw [Site.isSized_withBodies]
      exact suits.sized walked
    have copies : Site.Copies ⟨types.withBodies earlier, memory, subroutine⟩
        (types.subroutines.map Subroutine.label) := by
      refine Site.copies_withBodies wellFormed (known _ member subroutine found kept) ?_
      intro id callee body foundCallee bodied inline
      exact named_of_compiles wellFormed ran known foundCallee (within id body bodied)
        (by simp [inline])
    have tidy : Tidy compiled.code := by
      refine Site.tidy_of_compile ⟨copies, narrow.withBodies earlier, ?_⟩ done sized
      intro instruction inBody id callee calls present labels body inline bodied
      obtain ⟨indices, low, high, namedBody⟩ := copies.inlined id callee body present inline bodied
      obtain ⟨_, -, distinct, -⟩ : Named (types.subroutines.map Subroutine.label) subroutine.label
          [] labels (labels + 1)
          (bodyLabels (splice (copyPlace subroutine.label (labels + 1)) body)) :=
        namedBody.copy copies.own (Nat.lt_succ_self _) (Nat.le_refl _)
      rw [Program.subroutine?_withBodies, Option.map_eq_some_iff] at present
      obtain ⟨original, foundOriginal, rfl⟩ := present
      have namedOriginal := wellFormed.subroutineId id original foundOriginal
      rw [Subroutine.body?_withBody, namedOriginal] at bodied
      have call : Calls types subroutine.id id :=
        ⟨subroutine, found, CallGraph.walksBody_eq_true.mp walked, instruction, inBody,
          CallGraph.callee?_eq_some.mp calls⟩
      refine ⟨?_, ⟨fun _ => True, ?_⟩, (List.nodup_append.mp distinct).1⟩
      · refine before id original body foundOriginal bodied ?_
        rw [namedOriginal]
        exact onward subroutine.id id original fits call foundOriginal inline
      · rw [Subroutine.intrinsic?_withBody] at inline
        exact controlled_inside wellFormed ran foundOriginal (within id body bodied)
          (by simp [inline])
    unfold optimizeBody
    split
    next => exact tidy.optimize
    next => exact tidy

end Bodies

end Cartridge.Emit
