import Cartridge.Proofs.CallOrder
import Cartridge.Proofs.Ingestion

/-!
What the plan of a body says about each of its instructions.

A group is a row of constant loads with the call that takes them in. A call is no constant load, so
groups do not overlap, and the actions of a plan take in every instruction once and in order.
-/

namespace Cartridge.Emit

open Program (Subroutine TypeTable exists_mapM_iff exists_of_mapM forall₂_of_mapM)
open Program.CallGraph (callee?_eq_some)

variable {types : TypeTable} {subroutine : Subroutine}

theorem executedCallee?_eq_some {instruction : Code.Instruction} {callee : Subroutine} :
    executedCallee? types instruction = some callee ↔
      ∃ id evaluator, instruction.callee? = some id ∧ types.subroutine? id = some callee ∧
        callee.intrinsic? = some (.compileTime evaluator) := by
  simp only [executedCallee?, Option.bind_eq_bind, Option.bind_eq_some_iff]
  constructor
  · rintro ⟨id, calls, found, present, chosen⟩
    split at chosen
    next evaluator marked =>
      obtain rfl := Option.some.inj chosen
      exact ⟨id, evaluator, calls, present, marked⟩
    next => contradiction
  · rintro ⟨id, evaluator, calls, present, marked⟩
    exact ⟨id, calls, callee, present, by rw [marked]⟩

/-- The constants of a group stand right before its call, one for each parameter. -/
structure Group.Of (types : TypeTable) (body : List Code.Instruction) (group : Group) : Prop where
  call : ∃ instruction callee, body[group.call]? = some instruction ∧
    executedCallee? types instruction = some callee ∧
    group.start + callee.parameters.length = group.call
  constants : ∀ index, group.start ≤ index → index < group.call →
    ∃ instruction, body[index]? = some instruction ∧ instruction.opcode = .loadConstant

theorem Group.Of.lt_length {body : List Code.Instruction} {group : Group}
    (made : group.Of types body) : group.call < body.length := by
  obtain ⟨_, _, found, -, -⟩ := made.call
  exact (List.getElem?_eq_some_iff.mp found).1

/-- So many constants are loaded right before an instruction. -/
def ConstantsBefore (body : List Code.Instruction) (index count : Nat) : Prop :=
  count ≤ index ∧ ∀ position, index - count ≤ position → position < index →
    ∃ instruction, body[position]? = some instruction ∧ instruction.opcode = .loadConstant

theorem hasConstants_iff {body : List Code.Instruction} {index count : Nat}
    (inside : index < body.length) :
    hasConstants body index count = true ↔ ConstantsBefore body index count := by
  rw [hasConstants, Bool.and_eq_true, decide_eq_true_eq, ConstantsBefore]
  refine and_congr_right fun enough => ?_
  have taken : ∀ k, ((body.drop (index - count)).take count)[k]? =
      if k < count then body[index - count + k]? else none := by
    intro k
    rw [List.getElem?_take, List.getElem?_drop]
  rw [List.all_eq_true]
  constructor
  · intro loads position low high
    have found := List.getElem?_eq_getElem (Nat.lt_trans high inside)
    refine ⟨_, found, ?_⟩
    have member := taken (position - (index - count))
    rw [if_pos (by omega), Nat.add_sub_cancel' low, found] at member
    simpa using loads _ (List.mem_of_getElem? member)
  · intro loads instruction member
    obtain ⟨k, found⟩ := List.getElem?_of_mem member
    rw [taken] at found
    split at found
    next below =>
      obtain ⟨same, here, isLoad⟩ := loads (index - count + k) (by omega) (by omega)
      obtain rfl := Option.some.inj (here.symm.trans found)
      simpa using isLoad
    next => contradiction

theorem groupAt?_eq_ok {instruction : Code.Instruction} {index : Nat} {group : Group}
    (found : subroutine.instructions[index]? = some instruction)
    (grouped : groupAt? types subroutine (instruction, index) = .ok (some group)) :
    group.call = index ∧ group.Of types subroutine.instructions := by
  unfold groupAt? at grouped
  split at grouped
  next => simp at grouped
  next callee executed =>
    simp only at grouped
    split at grouped
    next constant =>
      obtain rfl := Option.some.inj (Except.ok.inj grouped)
      have inside := (List.getElem?_eq_some_iff.mp found).1
      obtain ⟨enough, loads⟩ := (hasConstants_iff inside).mp constant
      exact ⟨rfl, ⟨instruction, callee, found, executed, Nat.sub_add_cancel enough⟩, loads⟩
    next => contradiction

theorem groups_eq_ok {found : List Group} (grouped : groups types subroutine = .ok found) :
    (∀ group ∈ found, group.Of types subroutine.instructions) ∧
      ∀ (index : Nat) (instruction : Code.Instruction),
        subroutine.instructions[index]? = some instruction →
        (executedCallee? types instruction).isSome = true →
          ∃ group ∈ found, group.call = index := by
  obtain ⟨results, mapped, made⟩ := bind_eq_ok.mp grouped
  obtain rfl := pure_eq_ok.mp made
  constructor
  · intro group member
    obtain ⟨result, inside, same⟩ := List.mem_filterMap.mp member
    obtain rfl : result = some group := same
    obtain ⟨⟨instruction, index⟩, entry, done⟩ := exists_of_mapM mapped inside
    exact (groupAt?_eq_ok (List.mk_mem_zipIdx_iff_getElem?.mp entry) done).2
  · intro index instruction present executed
    obtain ⟨inside, rfl⟩ := List.getElem?_eq_some_iff.mp present
    have related := forall₂_of_mapM mapped
    have before : index < subroutine.instructions.zipIdx.length := by simpa using inside
    have bound : index < results.length := by rwa [← related.length_eq]
    have done := related.get before bound
    simp only [List.get_eq_getElem, List.getElem_zipIdx, Nat.zero_add] at done
    obtain ⟨callee, isCallee⟩ := Option.isSome_iff_exists.mp executed
    cases result : results[index] with
    | none =>
      rw [result] at done
      simp only [groupAt?, isCallee] at done
      split at done <;> simp at done
    | some group =>
      rw [result] at done
      refine ⟨group, ?_, (groupAt?_eq_ok present done).1⟩
      exact List.mem_filterMap.mpr ⟨some group, result ▸ List.getElem_mem bound, rfl⟩

/-- Groups that share an instruction are one. -/
theorem Group.Of.unique {body : List Code.Instruction} {first second : Group}
    (isFirst : first.Of types body) (isSecond : second.Of types body) {index : Nat}
    (inFirst : first.start ≤ index ∧ index ≤ first.call)
    (inSecond : second.start ≤ index ∧ index ≤ second.call) : first = second := by
  have notBefore : ∀ {one other : Group}, one.Of types body → other.Of types body →
      other.start ≤ index → index ≤ one.call → ¬one.call < other.call := by
    intro one other isOne isOther low high before
    obtain ⟨instruction, callee, found, executed, -⟩ := isOne.call
    obtain ⟨same, foundSame, loads⟩ := isOther.constants one.call (by omega) before
    obtain rfl := Option.some.inj (found.symm.trans foundSame)
    obtain ⟨id, evaluator, calls, -, -⟩ := executedCallee?_eq_some.mp executed
    rw [(callee?_eq_some.mp calls).1] at loads
    contradiction
  have calls : first.call = second.call := by
    have one := notBefore isFirst isSecond inSecond.1 inFirst.2
    have other := notBefore isSecond isFirst inFirst.1 inSecond.2
    omega
  obtain ⟨instruction, callee, found, executed, length⟩ := isFirst.call
  obtain ⟨same, calleeSame, foundSame, executedSame, lengthSame⟩ := isSecond.call
  rw [← calls] at foundSame
  obtain rfl := Option.some.inj (found.symm.trans foundSame)
  obtain rfl := Option.some.inj (executed.symm.trans executedSame)
  have starts : first.start = second.start := by omega
  cases first
  cases second
  simp_all

/-- No group takes in both an index and the one before it. -/
def Apart (groups : List Group) (index : Nat) : Prop :=
  ∀ group ∈ groups, ¬(group.start < index ∧ index ≤ group.call)

theorem start_of_find? {found : List Group} {index : Nat} {group : Group}
    (present : (found.find? fun group => group.start == index) = some group) :
    group ∈ found ∧ group.start = index :=
  ⟨List.mem_of_find?_eq_some present, by simpa using List.find?_some present⟩

theorem not_covers_of_find? {found : List Group} {index : Nat} (apart : Apart found index)
    (absent : (found.find? fun group => group.start == index) = none) :
    ∀ group ∈ found, ¬(group.start ≤ index ∧ index ≤ group.call) := by
  intro group member covers
  have elsewhere : group.start ≠ index := by simpa using List.find?_eq_none.mp absent group member
  exact apart group member ⟨by omega, covers.2⟩

theorem Apart.next {found : List Group} {index : Nat} (apart : Apart found index)
    (absent : (found.find? fun group => group.start == index) = none) :
    Apart found (index + 1) := by
  intro group member inside
  exact not_covers_of_find? apart absent group member ⟨by omega, by omega⟩

section Loop

variable {body : List Code.Instruction} {found : List Group}
  (made : ∀ group ∈ found, group.Of types body)

include made

theorem apart_of_call {group : Group} (member : group ∈ found) : Apart found (group.call + 1) := by
  intro other inFound inside
  have same := (made other inFound).unique (made group member)
    ⟨by omega, Nat.le_of_lt inside.2⟩ ⟨group.ordered, Nat.le_refl _⟩
  rw [same] at inside
  omega

/-- From where no group is cut in two, the actions take in every instruction to the end. -/
theorem indices_actionsFrom {index : Nat} (apart : Apart found index)
    (inside : index ≤ body.length) :
    (actionsFrom found index body.length).flatMap Action.indices =
      List.range' index (body.length - index) := by
  fun_induction actionsFrom found index body.length with
  | case1 index below group present ordered starts ih =>
    obtain ⟨member, rfl⟩ := start_of_find? present
    have bound := (made group member).lt_length
    rw [List.flatMap_cons, ih (apart_of_call made member) bound, Action.indices]
    have joined : List.range' group.start (group.call + 1 - group.start) ++
        List.range' (group.start + (group.call + 1 - group.start))
          (body.length - (group.call + 1)) =
        List.range' group.start
          (group.call + 1 - group.start + (body.length - (group.call + 1))) := List.range'_append_1
    rwa [Nat.add_sub_cancel' (by omega),
      show group.call + 1 - group.start + (body.length - (group.call + 1)) =
        body.length - group.start by omega] at joined
  | case2 index below absent ih =>
    rw [List.flatMap_cons, ih (apart.next absent) below, Action.indices, List.singleton_append,
      ← List.range'_succ, show body.length - (index + 1) + 1 = body.length - index by omega]
  | case3 index beyond =>
    rw [show body.length - index = 0 by omega]
    rfl

theorem execute_mem_actionsFrom {group : Group} (member : group ∈ found) {index : Nat}
    (before : index ≤ group.start) :
    .execute group.start group.call ∈ actionsFrom found index body.length := by
  have isGroup := made group member
  have bound := isGroup.lt_length
  fun_induction actionsFrom found index body.length with
  | case1 index below other present ordered starts ih =>
    obtain ⟨inFound, rfl⟩ := start_of_find? present
    by_cases shared : group.start ≤ other.call
    · -- The group that starts here takes in the start of the other one, so they are the same.
      obtain rfl :=
        (made other inFound).unique isGroup ⟨before, shared⟩ ⟨Nat.le_refl _, group.ordered⟩
      exact List.mem_cons_self
    · exact List.mem_cons_of_mem _ (ih (by omega))
  | case2 index below absent ih =>
    have elsewhere : group.start ≠ index := by
      simpa using List.find?_eq_none.mp absent group member
    exact List.mem_cons_of_mem _ (ih (by omega))
  | case3 index beyond =>
    have ordered := group.ordered
    omega

theorem not_covers_of_compile_mem {index position : Nat} (apart : Apart found index)
    (listed : .compile position ∈ actionsFrom found index body.length) :
    position < body.length ∧
      ∀ group ∈ found, ¬(group.start ≤ position ∧ position ≤ group.call) := by
  fun_induction actionsFrom found index body.length with
  | case1 index below group present ordered starts ih =>
    have later := (List.mem_cons.mp listed).resolve_left nofun
    exact ih (apart_of_call made (start_of_find? present).1) later
  | case2 index below absent ih =>
    rcases List.mem_cons.mp listed with here | later
    · obtain rfl := Action.compile.inj here
      exact ⟨below, not_covers_of_find? apart absent⟩
    · exact ih (apart.next absent) later
  | case3 => contradiction

omit made in
theorem group_of_execute_mem {index stop start call : Nat}
    (listed : .execute start call ∈ actionsFrom found index stop) :
    ∃ group ∈ found, group.start = start ∧ group.call = call := by
  fun_induction actionsFrom found index stop with
  | case1 index below group present ordered starts ih =>
    rcases List.mem_cons.mp listed with here | later
    · obtain ⟨rfl, rfl⟩ := Action.execute.inj here
      exact ⟨group, (start_of_find? present).1, (start_of_find? present).2, rfl⟩
    · exact ih later
  | case2 index below absent ih => exact ih ((List.mem_cons.mp listed).resolve_left nofun)
  | case3 => contradiction

end Loop

theorem apart_zero (found : List Group) : Apart found 0 :=
  fun _ _ inside => Nat.not_lt_zero _ inside.1

/-- A call that the compiler executes has its action in the plan. -/
theorem exists_group_of_plan {actions : List Action} (made : plan types subroutine = .ok actions)
    {call : Nat} {instruction : Code.Instruction}
    (present : subroutine.instructions[call]? = some instruction)
    (executed : (executedCallee? types instruction).isSome = true) :
    ∃ group : Group, group.Of types subroutine.instructions ∧ group.call = call ∧
      .execute group.start group.call ∈ actions := by
  obtain ⟨found, grouped, listed⟩ := bind_eq_ok.mp made
  obtain rfl := pure_eq_ok.mp listed
  obtain ⟨areGroups, complete⟩ := groups_eq_ok grouped
  obtain ⟨group, member, isCall⟩ := complete call instruction present executed
  exact ⟨group, areGroups group member, isCall,
    execute_mem_actionsFrom areGroups member (Nat.zero_le _)⟩

/-- What a plan executes is a group. -/
theorem group_of_plan {actions : List Action} (made : plan types subroutine = .ok actions)
    {start call : Nat} (member : .execute start call ∈ actions) :
    ∃ group : Group, group.Of types subroutine.instructions ∧ group.start = start ∧
      group.call = call := by
  obtain ⟨found, grouped, listed⟩ := bind_eq_ok.mp made
  obtain rfl := pure_eq_ok.mp listed
  obtain ⟨group, inFound, starts, ends⟩ := group_of_execute_mem member
  exact ⟨group, (groups_eq_ok grouped).1 group inFound, starts, ends⟩

structure Planned (types : TypeTable) (body : List Code.Instruction) (actions : List Action) :
    Prop where
  compiled : ∀ index, .compile index ∈ actions →
    ∃ instruction, body[index]? = some instruction ∧ executedCallee? types instruction = none
  executed : ∀ start call, .execute start call ∈ actions →
    ∃ instruction callee, body[call]? = some instruction ∧
      executedCallee? types instruction = some callee
  indices : actions.flatMap Action.indices = List.range body.length

theorem Planned.found {body : List Code.Instruction} {actions : List Action}
    (planned : Planned types body actions) {index : Nat} (member : .compile index ∈ actions) :
    ∃ instruction, body[index]? = some instruction := by
  obtain ⟨instruction, found, -⟩ := planned.compiled index member
  exact ⟨instruction, found⟩

theorem plan_eq_ok {actions : List Action} (made : plan types subroutine = .ok actions) :
    Planned types subroutine.instructions actions := by
  have executes : ∀ start call, .execute start call ∈ actions →
      ∃ instruction callee, subroutine.instructions[call]? = some instruction ∧
        executedCallee? types instruction = some callee := by
    intro start call member
    obtain ⟨group, isGroup, -, rfl⟩ := group_of_plan made member
    obtain ⟨instruction, callee, found, executed, -⟩ := isGroup.call
    exact ⟨instruction, callee, found, executed⟩
  obtain ⟨found, grouped, listed⟩ := bind_eq_ok.mp made
  obtain rfl := pure_eq_ok.mp listed
  obtain ⟨areGroups, complete⟩ := groups_eq_ok grouped
  refine ⟨?_, executes, ?_⟩
  · intro index member
    obtain ⟨bound, outside⟩ := not_covers_of_compile_mem areGroups (apart_zero found) member
    refine ⟨_, List.getElem?_eq_getElem bound, ?_⟩
    by_contra executed
    obtain ⟨group, inFound, rfl⟩ := complete _ _ (List.getElem?_eq_getElem bound)
      (Option.isSome_iff_ne_none.mpr executed)
    exact outside group inFound ⟨group.ordered, Nat.le_refl _⟩
  · rw [indices_actionsFrom areGroups (apart_zero found) (Nat.zero_le _), Nat.sub_zero,
      List.range_eq_range']

/-- A call that the compiler executes, and what it calls. -/
def ExecutedAt (types : TypeTable) (body : List Code.Instruction) (call : Nat)
    (callee : Subroutine) : Prop :=
  ∃ id evaluator, body[call]? = some ⟨.call, .method id⟩ ∧ types.subroutine? id = some callee ∧
    callee.intrinsic? = some (.compileTime evaluator)

theorem executedAt_iff {body : List Code.Instruction} {call : Nat} {callee : Subroutine} :
    ExecutedAt types body call callee ↔
      ∃ instruction, body[call]? = some instruction ∧
        executedCallee? types instruction = some callee := by
  simp only [executedCallee?_eq_some, callee?_eq_some]
  constructor
  · rintro ⟨id, evaluator, found, present, marked⟩
    exact ⟨_, found, id, evaluator, ⟨rfl, rfl⟩, present, marked⟩
  · rintro ⟨⟨opcode, operand⟩, found, id, evaluator, ⟨rfl, rfl⟩, present, marked⟩
    exact ⟨id, evaluator, found, present, marked⟩

theorem exists_groupAt?_iff {instruction : Code.Instruction} {index : Nat}
    (found : subroutine.instructions[index]? = some instruction) :
    (∃ group?, groupAt? types subroutine (instruction, index) = .ok group?) ↔
      ∀ callee, executedCallee? types instruction = some callee →
        ConstantsBefore subroutine.instructions index callee.parameters.length := by
  have inside := (List.getElem?_eq_some_iff.mp found).1
  unfold groupAt?
  cases executed : executedCallee? types instruction with
  | none => simp
  | some callee =>
    simp only [Option.some.injEq, forall_eq', ← hasConstants_iff inside]
    split
    next constant => simp [constant]
    next missing => simp [missing]

/-- A plan is made exactly if each call that is executed comes after its constants. -/
theorem exists_plan_iff :
    (∃ actions, plan types subroutine = .ok actions) ↔
      ∀ call callee, ExecutedAt types subroutine.instructions call callee →
        ConstantsBefore subroutine.instructions call callee.parameters.length := by
  have planned : (∃ actions, plan types subroutine = .ok actions) ↔
      ∀ entry ∈ subroutine.instructions.zipIdx,
        ∃ group?, groupAt? types subroutine entry = .ok group? := by
    rw [← exists_mapM_iff]
    constructor
    · rintro ⟨actions, made⟩
      obtain ⟨found, grouped, -⟩ := bind_eq_ok.mp made
      obtain ⟨results, mapped, -⟩ := bind_eq_ok.mp grouped
      exact ⟨results, mapped⟩
    · rintro ⟨results, mapped⟩
      exact ⟨_, bind_eq_ok.mpr ⟨_, bind_eq_ok.mpr ⟨results, mapped, rfl⟩, rfl⟩⟩
  rw [planned]
  constructor
  · intro all call callee executed
    obtain ⟨instruction, found, calls⟩ := executedAt_iff.mp executed
    have made := all (instruction, call) (List.mk_mem_zipIdx_iff_getElem?.mpr found)
    exact (exists_groupAt?_iff found).mp made callee calls
  · rintro all ⟨instruction, index⟩ member
    have found := List.mk_mem_zipIdx_iff_getElem?.mp member
    refine (exists_groupAt?_iff found).mpr fun callee calls => ?_
    exact all index callee (executedAt_iff.mpr ⟨instruction, found, calls⟩)

/-- Among actions that share no instruction, one that takes in a given one is the only one. -/
theorem filter_indices {actions : List Action} (apart : (actions.flatMap Action.indices).Nodup)
    {action : Action} (member : action ∈ actions) {index : Nat} (taken : index ∈ action.indices) :
    (actions.filter fun other => other.indices.contains index) = [action] := by
  induction actions with
  | nil => contradiction
  | cons first actions ih =>
    obtain ⟨-, rest, disjoint⟩ := List.nodup_append.mp (List.flatMap_cons ▸ apart)
    rcases List.mem_cons.mp member with rfl | later
    · have none : (actions.filter fun other => other.indices.contains index) = [] := by
        rw [List.filter_eq_nil_iff]
        intro other inside takes
        exact disjoint index taken index
          (List.mem_flatMap.mpr ⟨other, inside, List.contains_iff_mem.mp takes⟩) rfl
      rw [List.filter_cons_of_pos (by simpa using taken), none]
    · have elsewhere : index ∉ first.indices := fun takes =>
        disjoint index takes index (List.mem_flatMap.mpr ⟨action, later, taken⟩) rfl
      rw [List.filter_cons_of_neg (by simpa using elsewhere), ih rest later]

/-- Actions that divide a body between them: each call that is executed has one of its own, with
the constants before it, and all others take in single instructions. -/
structure Divides (types : TypeTable) (body : List Code.Instruction) (actions : List Action) :
    Prop where
  indices : actions.flatMap Action.indices = List.range body.length
  executed : ∀ call callee, ExecutedAt types body call callee →
    (actions.filter fun action => action.indices.contains call) =
      [.execute (call - callee.parameters.length) call]
  others : ∀ action ∈ actions,
    (∃ call callee, ExecutedAt types body call callee ∧
      action = .execute (call - callee.parameters.length) call) ∨
    ∃ index, action = .compile index

theorem Group.Of.start_eq {body : List Code.Instruction} {group : Group}
    (made : group.Of types body) {callee : Subroutine}
    (executed : ExecutedAt types body group.call callee) :
    group.start = group.call - callee.parameters.length := by
  obtain ⟨instruction, found, calls⟩ := executedAt_iff.mp executed
  obtain ⟨same, isCallee, foundSame, callsSame, length⟩ := made.call
  obtain rfl := Option.some.inj (found.symm.trans foundSame)
  obtain rfl := Option.some.inj (calls.symm.trans callsSame)
  omega

theorem divides_of_plan {actions : List Action} (made : plan types subroutine = .ok actions) :
    Divides types subroutine.instructions actions := by
  have planned := plan_eq_ok made
  refine ⟨planned.indices, ?_, ?_⟩
  · intro call callee executed
    obtain ⟨instruction, found, calls⟩ := executedAt_iff.mp executed
    obtain ⟨group, isGroup, rfl, member⟩ :=
      exists_group_of_plan made found (Option.isSome_iff_exists.mpr ⟨callee, calls⟩)
    have taken : group.call ∈ (Action.execute group.start group.call).indices := by
      have ordered := group.ordered
      rw [Action.indices, List.mem_range'_1]
      omega
    rw [← isGroup.start_eq executed]
    exact filter_indices (planned.indices ▸ List.nodup_range) member taken
  · intro action member
    cases action with
    | compile index => exact .inr ⟨index, rfl⟩
    | execute start call =>
      obtain ⟨group, isGroup, rfl, rfl⟩ := group_of_plan made member
      obtain ⟨instruction, callee, found, calls, -⟩ := isGroup.call
      have executed := executedAt_iff.mpr ⟨instruction, found, calls⟩
      exact .inl ⟨group.call, callee, executed, by rw [← isGroup.start_eq executed]⟩

/-- A plan is made exactly if each call that the compiler executes comes right after its constants,
and then the actions of the plan divide the body between them. -/
theorem plan_divides (types : TypeTable) (subroutine : Subroutine) :
    ((∃ actions, plan types subroutine = .ok actions) ↔
      ∀ call callee, ExecutedAt types subroutine.instructions call callee →
        ConstantsBefore subroutine.instructions call callee.parameters.length) ∧
    ∀ actions, plan types subroutine = .ok actions →
      Divides types subroutine.instructions actions :=
  ⟨exists_plan_iff, fun _ => divides_of_plan⟩

end Cartridge.Emit
