import Cartridge.Proofs.Reduction
import Cartridge.Proofs.Compilation
import Mathlib.Data.Option.Basic

/-!
Compilation looks at a table only through the members that its instructions name.

Two tables that have the same fields and callees give the same code. Bodies of callees that are
copied may even differ, as long as their copies are alike: then so is all the code around them. Of
an opcode without a meaning not even the operand matters, since it is refused by its name.
-/

namespace Cartridge.Code

namespace Instruction

/-- An instruction without a subroutine that no call goes to. -/
def core : Instruction → Instruction
  | ⟨.other name, .method _⟩ => ⟨.other name, .empty⟩
  | instruction => instruction

theorem core_cases (instruction : Instruction) :
    instruction.core = instruction ∨
      ∃ name id, instruction = ⟨.other name, .method id⟩ ∧
        instruction.core = ⟨.other name, .empty⟩ := by
  unfold core
  split
  next name id => exact .inr ⟨name, id, rfl, rfl⟩
  next => exact .inl rfl

@[simp] theorem opcode_core (instruction : Instruction) :
    instruction.core.opcode = instruction.opcode := by
  rcases instruction.core_cases with same | ⟨name, id, rfl, same⟩ <;> rw [same]

@[simp] theorem branchTarget?_core (instruction : Instruction) :
    instruction.core.branchTarget? = instruction.branchTarget? := by
  rcases instruction.core_cases with same | ⟨name, id, rfl, same⟩
  · rw [same]
  · rw [same]
    rfl

@[simp] theorem callee?_core (instruction : Instruction) :
    instruction.core.callee? = instruction.callee? := by
  rcases instruction.core_cases with same | ⟨name, id, rfl, same⟩
  · rw [same]
  · rw [same]
    rfl

theorem eq_of_core_eq {first second : Instruction} (same : first.core = second.core) :
    first = second ∨ ∃ name operand other, first = ⟨.other name, operand⟩ ∧
      second = ⟨.other name, other⟩ := by
  rcases first.core_cases with kept | ⟨name, id, rfl, kept⟩ <;>
    rcases second.core_cases with keptToo | ⟨other, target, rfl, keptToo⟩ <;>
    rw [kept, keptToo] at same
  · exact .inl same
  · exact .inr ⟨other, _, _, same, rfl⟩
  · exact .inr ⟨name, _, _, rfl, same.symm⟩
  · obtain ⟨⟨rfl⟩, -⟩ := Instruction.mk.inj same
    exact .inr ⟨name, _, _, rfl, rfl⟩

end Instruction

section Core

variable (body : List Instruction)

theorem targets_core : targets (body.map Instruction.core) = targets body := by
  simp [targets, List.filterMap_map]

theorem leaders_core :
    FlowGraph.leaders (body.map Instruction.core) = FlowGraph.leaders body := by
  have gathers : ∀ length leaders (entry : Instruction × Nat),
      FlowGraph.gather length leaders (Prod.map Instruction.core id entry) =
        FlowGraph.gather length leaders entry := by
    intro length leaders entry
    simp [FlowGraph.gather, Instruction.endsBlock]
  simp [FlowGraph.leaders, List.zipIdx_map, List.foldl_map, gathers]

theorem ofBody_core : FlowGraph.ofBody (body.map Instruction.core) = FlowGraph.ofBody body := by
  have cuts : FlowGraph.cut (body.map Instruction.core) = FlowGraph.cut body := by
    rw [FlowGraph.cut, leaders_core, List.length_map, FlowGraph.cut]
  have successors : FlowGraph.successorsOf (body.map Instruction.core) =
      FlowGraph.successorsOf body := by
    funext blockOf block
    unfold FlowGraph.successorsOf
    rw [List.getElem?_map, List.length_map]
    cases body[block.stop - 1]? with
    | none => rfl
    | some last => simp [Instruction.fallsThrough]
  have connects : FlowGraph.connect (body.map Instruction.core) = FlowGraph.connect body := by
    funext blockOf blocks id
    rw [FlowGraph.connect, successors, FlowGraph.connect]
  rw [FlowGraph.ofBody, cuts, connects, List.length_map, FlowGraph.ofBody]

end Core

end Cartridge.Code

namespace Cartridge.Emit

open Asm (Line Symbol)
open Code (EvalStack)
open Program (Body Fault Subroutine TypeTable)

/-- Results that agree: the same fault, or values that are alike. -/
inductive SameOutcome {ε α : Type} (alike : α → α → Prop) : Except ε α → Except ε α → Prop
  | error (fault : ε) : SameOutcome alike (.error fault) (.error fault)
  | ok {first second : α} (same : alike first second) : SameOutcome alike (.ok first) (.ok second)

namespace SameOutcome

variable {ε α β : Type} {alike : α → α → Prop} {further : β → β → Prop} {first second : Except ε α}

theorem of_eq (reflexive : ∀ value, alike value value) (same : first = second) :
    SameOutcome alike first second := by
  subst same
  cases first with
  | error fault => exact .error fault
  | ok value => exact .ok (reflexive value)

theorem bind {next other : α → Except ε β} (agree : SameOutcome alike first second)
    (continues : ∀ {value counterpart}, alike value counterpart →
      SameOutcome further (next value) (other counterpart)) :
    SameOutcome further (first >>= next) (second >>= other) := by
  cases agree with
  | error fault => exact .error fault
  | ok same => exact continues same

theorem bind_self {next other : α → Except ε β}
    (continues : ∀ value, SameOutcome further (next value) (other value)) :
    SameOutcome further (first >>= next) (first >>= other) := by
  cases first with
  | error fault => exact .error fault
  | ok value => exact continues value

theorem remember (agree : SameOutcome alike first second) :
    SameOutcome (fun value counterpart => alike value counterpart ∧ first = .ok value) first
      second := by
  cases agree with
  | error fault => exact .error fault
  | ok same => exact .ok ⟨same, rfl⟩

/-- A run over a list agrees if its steps do. -/
theorem foldlM {γ : Type} {step other : α → γ → Except ε α} {list : List γ}
    (steps : ∀ item ∈ list, ∀ {state counterpart}, alike state counterpart →
      SameOutcome alike (step state item) (other counterpart item))
    {state counterpart : α} (same : alike state counterpart) :
    SameOutcome alike (list.foldlM step state) (list.foldlM other counterpart) := by
  induction list generalizing state counterpart with
  | nil => exact .ok same
  | cons item list ih =>
    rw [List.foldlM_cons, List.foldlM_cons]
    apply (steps item List.mem_cons_self same).bind
    intro next counterpart same
    exact ih (fun item member => steps item (List.mem_cons_of_mem _ member)) same

end SameOutcome

theorem mapM_congr {ε α β : Type} {function other : α → Except ε β} {list : List α}
    (same : ∀ item ∈ list, function item = other item) : list.mapM function = list.mapM other := by
  induction list with
  | nil => rfl
  | cons item list ih =>
    rw [List.mapM_cons, List.mapM_cons, same item List.mem_cons_self,
      ih fun item member => same item (List.mem_cons_of_mem _ member)]

/-- Alike code can be exchanged as part of other code. -/
structure Congruence (alike : List Line → List Line → Prop) : Prop where
  refl : ∀ code, alike code code
  append : ∀ {first second more rest}, alike first second → alike more rest →
    alike (first ++ more) (second ++ rest)

section Kinds

variable (alike : List Line → List Line → Prop)

def BodyAlike (first second : Body) : Prop :=
  alike first.code second.code ∧ first.data = second.data

structure FragmentAlike (first second : Fragment) : Prop where
  code : alike first.code second.code
  data : first.data = second.data
  stack : first.stack = second.stack
  labels : first.labels = second.labels

structure ProgressAlike (first second : Progress) : Prop where
  tracker : first.tracker = second.tracker
  labels : first.labels = second.labels
  code : alike first.code second.code
  data : first.data = second.data

/-- Subroutines that a caller cannot tell apart, except that copies of their bodies are alike. -/
structure CalleeAlike (first second : Subroutine) : Prop where
  same : ∃ instructions body?, first = { second with instructions, body? }
  copies : first.intrinsic? = some .alwaysInline → ∀ place,
    Option.Rel (BodyAlike alike) (first.body?.map (splice place)) (second.body?.map (splice place))

/-- Tables in which the instructions of a subroutine find the same, as others do in their place. -/
structure Interchangeable (types other : TypeTable) (subroutine : Subroutine)
    (instructions : List Code.Instruction) : Prop where
  written : subroutine.instructions.map Code.Instruction.core =
    instructions.map Code.Instruction.core
  fields : ∀ instruction ∈ subroutine.instructions, ∀ id, instruction.operand = .field id →
    types.field? id = other.field? id
  callees : ∀ instruction ∈ subroutine.instructions, ∀ id, instruction.callee? = some id →
    Option.Rel (CalleeAlike alike) (types.subroutine? id) (other.subroutine? id)

end Kinds

variable {alike : List Line → List Line → Prop}

namespace Site

variable {types other : TypeTable} {memory : Memory.Map}
  {subroutine callee counterpart : Subroutine} {instructions : List Code.Instruction}
  {index labels : Nat} {stack : EvalStack}

theorem storeArguments_congr (types other : TypeTable)
    (instructions written : List Code.Instruction) (body? : Option Body)
    (parameters : List (ValueType × Nat)) (stack : EvalStack) :
    storeArguments ⟨types, memory, subroutine⟩ index
        { callee with instructions := written, body? } parameters stack =
      storeArguments ⟨other, memory, { subroutine with instructions }⟩ index callee parameters
        stack := by
  induction parameters generalizing stack with
  | nil => rfl
  | cons parameter parameters ih =>
    simp only [storeArguments, ih]
    rfl

theorem transfer_eq_jump {site : Site} (callee : Subroutine)
    (apart : callee.intrinsic? ≠ some .alwaysInline) :
    site.transfer labels stack callee =
      .ok { code := [.direct .jsr callee.label], stack, labels } := by
  unfold transfer
  split
  next inline => exact absurd inline apart
  next => rfl

theorem transfer_agree (congruence : Congruence alike)
    (same : CalleeAlike alike callee counterpart) :
    SameOutcome (FragmentAlike alike) (transfer ⟨types, memory, subroutine⟩ labels stack callee)
      (transfer ⟨other, memory, { subroutine with instructions }⟩ labels stack counterpart) := by
  obtain ⟨⟨written, body?, rfl⟩, copies⟩ := same
  by_cases inline : counterpart.intrinsic? = some .alwaysInline
  · have copied := copies inline (numberedLabel ⟨types, memory, subroutine⟩ "Inline" (labels + 1))
    simp only [transfer, inline]
    cases body? with
    | none =>
      cases found : counterpart.body? with
      | none => exact .error _
      | some body => simp [found] at copied
    | some body =>
      cases found : counterpart.body? with
      | none => simp [found] at copied
      | some replaced =>
        rw [found] at copied
        obtain ⟨code, data⟩ := Option.rel_some_some.mp copied
        exact .ok ⟨code, data, rfl, rfl⟩
  · rw [transfer_eq_jump { counterpart with instructions := written, body? } inline,
      transfer_eq_jump counterpart inline]
    exact .ok ⟨congruence.refl _, rfl, rfl, rfl⟩

theorem callBody_agree (congruence : Congruence alike)
    (same : CalleeAlike alike callee counterpart) :
    SameOutcome (FragmentAlike alike)
      (callBody ⟨types, memory, subroutine⟩ index labels stack callee)
      (callBody ⟨other, memory, { subroutine with instructions }⟩ index labels stack
        counterpart) := by
  have transferred : ∀ stack, SameOutcome (FragmentAlike alike)
      (transfer ⟨types, memory, subroutine⟩ labels stack callee)
      (transfer ⟨other, memory, { subroutine with instructions }⟩ labels stack counterpart) :=
    fun _ => transfer_agree congruence same
  obtain ⟨⟨written, body?, rfl⟩, -⟩ := same
  simp only [callBody, storeArguments_congr types other instructions]
  split
  next => exact .error _
  next =>
    apply SameOutcome.bind_self
    rintro ⟨passing, stack⟩
    refine (transferred stack).bind ?_
    intro fragment counterpart same
    dsimp only
    split
    next =>
      exact .ok ⟨congruence.append (congruence.refl _) same.code, same.data, same.stack,
        same.labels⟩
    next =>
      refine .ok ⟨?_, same.data, rfl, same.labels⟩
      exact congruence.append (congruence.append (congruence.refl _) same.code)
        (congruence.refl _)

theorem constantBytes?_core (body : List Code.Instruction) :
    constantBytes? (body.map Code.Instruction.core) = constantBytes? body := by
  unfold constantBytes?
  rw [List.mapM_map]
  congr 1
  funext instruction
  rcases instruction.core_cases with same | ⟨name, id, rfl, same⟩
  · rw [Function.comp_apply, same]
  · rw [Function.comp_apply, same]

/-- What the instructions of a subroutine call is the same in both tables, up to bodies. -/
theorem execute_congr (tables : Interchangeable alike types other subroutine instructions)
    (start call : Nat) :
    execute ⟨types, memory, subroutine⟩ start call labels stack =
      execute ⟨other, memory, { subroutine with instructions }⟩ start call labels stack := by
  have called : ∀ body : List Code.Instruction,
      (body.map Code.Instruction.core)[call]?.bind Code.Instruction.callee? =
        body[call]?.bind Code.Instruction.callee? := by
    intro body
    rw [List.getElem?_map, Option.bind_map]
    congr 1
    funext instruction
    exact instruction.callee?_core
  have constants : constantBytes? ((subroutine.instructions.drop start).take (call - start)) =
      constantBytes? ((instructions.drop start).take (call - start)) := by
    rw [← constantBytes?_core, List.map_take, List.map_drop, tables.written, ← List.map_drop,
      ← List.map_take, constantBytes?_core]
  unfold execute
  dsimp only
  rw [constants, ← called instructions, ← tables.written, called]
  cases found : subroutine.instructions[call]?.bind Code.Instruction.callee? with
  | none => rfl
  | some id =>
    obtain ⟨instruction, here, calls⟩ := Option.bind_eq_some_iff.mp found
    have related := tables.callees instruction (List.mem_of_getElem? here) id calls
    dsimp only
    revert related
    generalize types.subroutine? id = first, other.subroutine? id = second
    rintro (⟨⟨written, body?, rfl⟩, -⟩ | -)
    · rfl
    · rfl

theorem call_agree (congruence : Congruence alike) (same : CalleeAlike alike callee counterpart)
    (tables : Interchangeable alike types other subroutine instructions) :
    SameOutcome (FragmentAlike alike) (call ⟨types, memory, subroutine⟩ index labels stack callee)
      (call ⟨other, memory, { subroutine with instructions }⟩ index labels stack counterpart) := by
  have made : SameOutcome (FragmentAlike alike)
      (callBody ⟨types, memory, subroutine⟩ index labels stack callee)
      (callBody ⟨other, memory, { subroutine with instructions }⟩ index labels stack counterpart) :=
    callBody_agree congruence same
  have equal : ∀ {first second : Except Fault Fragment}, first = second →
      SameOutcome (FragmentAlike alike) first second :=
    .of_eq fun _ => ⟨congruence.refl _, rfl, rfl, rfl⟩
  obtain ⟨⟨written, body?, rfl⟩, -⟩ := same
  unfold call at *
  dsimp only
  split
  next => exact equal rfl
  next => exact equal rfl
  next => exact equal rfl
  next => exact equal rfl
  next => exact equal (execute_congr tables index index)
  next => exact made

theorem step_agree (congruence : Congruence alike)
    (tables : Interchangeable alike types other subroutine instructions)
    {instruction : Code.Instruction} (member : instruction ∈ subroutine.instructions) :
    SameOutcome (FragmentAlike alike)
      (step ⟨types, memory, subroutine⟩ index instruction labels stack)
      (step ⟨other, memory, { subroutine with instructions }⟩ index instruction labels stack) := by
  have equal : ∀ {first second : Except Fault Fragment}, first = second →
      SameOutcome (FragmentAlike alike) first second :=
    .of_eq fun _ => ⟨congruence.refl _, rfl, rfl, rfl⟩
  have fields := tables.fields instruction member
  have callees := tables.callees instruction member
  obtain ⟨opcode, operand⟩ := instruction
  cases operand with
  | field id =>
    have found := fields id rfl
    have same : ∀ opcode, field ⟨types, memory, subroutine⟩ index opcode id =
        field ⟨other, memory, { subroutine with instructions }⟩ index opcode id := by
      intro opcode
      rw [field, field, found]
      rfl
    have static : ∀ opcode, staticField ⟨types, memory, subroutine⟩ index opcode id =
        staticField ⟨other, memory, { subroutine with instructions }⟩ index opcode id := by
      intro opcode
      rw [staticField, staticField, same]
      rfl
    have inner : ∀ opcode, instanceField ⟨types, memory, subroutine⟩ index opcode id =
        instanceField ⟨other, memory, { subroutine with instructions }⟩ index opcode id := by
      intro opcode
      rw [instanceField, instanceField, same]
      rfl
    apply equal
    cases opcode <;>
      simp only [step, loadStaticAddress, loadField, loadFieldAddress, storeField, static,
        inner] <;> rfl
  | method id =>
    cases opcode with
    | call =>
      have related := callees id rfl
      simp only [step]
      revert related
      generalize types.subroutine? id = first, other.subroutine? id = second
      rintro (same | -)
      · exact call_agree congruence same tables
      · exact .error _
    | _ => exact equal rfl
  | _ =>
    apply equal
    cases opcode <;> rfl

theorem perform_agree (congruence : Congruence alike)
    (tables : Interchangeable alike types other subroutine instructions) (action : Action) :
    SameOutcome (FragmentAlike alike) (perform ⟨types, memory, subroutine⟩ action labels stack)
      (perform ⟨other, memory, { subroutine with instructions }⟩ action labels stack) := by
  cases action with
  | compile index =>
    have both : subroutine.instructions[index]?.map Code.Instruction.core =
        instructions[index]?.map Code.Instruction.core := by
      rw [← List.getElem?_map, tables.written, List.getElem?_map]
    simp only [perform]
    cases here : subroutine.instructions[index]? with
    | none =>
      rw [here, Option.map_none, eq_comm, Option.map_eq_none_iff] at both
      rw [both]
      exact .ok ⟨congruence.refl _, rfl, rfl, rfl⟩
    | some instruction =>
      rw [here, Option.map_some, eq_comm, Option.map_eq_some_iff] at both
      obtain ⟨written, there, same⟩ := both
      rw [there]
      rcases Code.Instruction.eq_of_core_eq same with rfl | ⟨name, operand, other, rfl, rfl⟩
      · exact step_agree congruence tables (List.mem_of_getElem? here)
      · exact .error _
  | execute start call =>
    exact .of_eq (fun _ => ⟨congruence.refl _, rfl, rfl, rfl⟩) (execute_congr tables start call)

theorem advance_agree (congruence : Congruence alike)
    (tables : Interchangeable alike types other subroutine instructions) (targets : List Nat)
    (action : Action)
    {progress reached : Progress} (same : ProgressAlike alike progress reached) :
    SameOutcome (ProgressAlike alike) (advance ⟨types, memory, subroutine⟩ targets progress action)
      (advance ⟨other, memory, { subroutine with instructions }⟩ targets reached action) := by
  obtain ⟨tracker, labels, code, data⟩ := progress
  obtain ⟨tracker', labels', code', data'⟩ := reached
  obtain ⟨rfl, rfl, codes, rfl⟩ := same
  unfold advance
  apply (perform_agree congruence tables action).bind
  intro fragment counterpart same
  refine .ok ⟨by rw [same.stack], same.labels, ?_, by rw [same.data]⟩
  exact congruence.append (congruence.append codes (congruence.refl _)) same.code

end Site

theorem hasConstants_core (body : List Code.Instruction) (index arity : Nat) :
    hasConstants (body.map Code.Instruction.core) index arity = hasConstants body index arity := by
  rw [hasConstants, ← List.map_drop, ← List.map_take, List.all_map, hasConstants]
  simp [Function.comp_def]

theorem mapM_groupAt?_core (types : TypeTable) (subroutine : Subroutine)
    (body : List Code.Instruction) :
    (body.map Code.Instruction.core).zipIdx.mapM (groupAt? types subroutine) =
      body.zipIdx.mapM (groupAt? types subroutine) := by
  rw [List.zipIdx_map, List.mapM_map]
  congr 1
  funext entry
  simp [groupAt?, executedCallee?]

section Compilation

variable {types other : TypeTable} {memory : Memory.Map} {subroutine : Subroutine}
  {instructions : List Code.Instruction}

theorem groupAt?_congr (tables : Interchangeable alike types other subroutine instructions)
    {entry : Code.Instruction × Nat} (member : entry.1 ∈ subroutine.instructions) :
    groupAt? types subroutine entry = groupAt? other { subroutine with instructions } entry := by
  have constants : ∀ arity, hasConstants subroutine.instructions entry.2 arity =
      hasConstants instructions entry.2 arity := by
    intro arity
    rw [← hasConstants_core, tables.written, hasConstants_core]
  have callees := tables.callees entry.1 member
  simp only [groupAt?, executedCallee?, Option.bind_eq_bind, constants]
  cases calls : entry.1.callee? with
  | none => rfl
  | some id =>
    have related := callees id calls
    simp only [Option.bind_some]
    revert related
    generalize types.subroutine? id = first, other.subroutine? id = second
    rintro (@⟨_, callee, ⟨written, body?, rfl⟩, -⟩ | -)
    · simp only [Option.bind_some]
      cases callee.intrinsic? with
      | none => rfl
      | some intrinsic => cases intrinsic <;> rfl
    · rfl

theorem plan_congr (tables : Interchangeable alike types other subroutine instructions) :
    plan types subroutine = plan other { subroutine with instructions } := by
  have grouped : subroutine.instructions.zipIdx.mapM (groupAt? types subroutine) =
      instructions.zipIdx.mapM (groupAt? other { subroutine with instructions }) := by
    rw [← mapM_groupAt?_core other, ← tables.written, mapM_groupAt?_core]
    apply mapM_congr
    intro entry member
    exact groupAt?_congr tables (List.fst_mem_of_mem_zipIdx member)
  have length : subroutine.instructions.length = instructions.length := by
    rw [← List.length_map Code.Instruction.core, tables.written, List.length_map]
  rw [plan, plan, groups, groups, grouped, length]

/-- Code that is compiled with either table is alike, and where one is refused so is the other. -/
theorem compile_agree (congruence : Congruence alike)
    (tables : Interchangeable alike types other subroutine instructions) :
    SameOutcome (BodyAlike alike) (Site.compile ⟨types, memory, subroutine⟩)
      (Site.compile ⟨other, memory, { subroutine with instructions }⟩) := by
  have targets : Code.targets subroutine.instructions = Code.targets instructions := by
    rw [← Code.targets_core, tables.written, Code.targets_core]
  have graph : subroutine.flowGraph = Subroutine.flowGraph { subroutine with instructions } := by
    rw [Subroutine.flowGraph, ← Code.ofBody_core, tables.written, Code.ofBody_core]
    rfl
  unfold Site.compile
  dsimp only
  rw [plan_congr tables, targets, graph]
  apply SameOutcome.bind_self
  intro actions
  have same : ProgressAlike alike
      { tracker := .start (Subroutine.flowGraph { subroutine with instructions }) }
      { tracker := .start (Subroutine.flowGraph { subroutine with instructions }) } :=
    ⟨rfl, rfl, congruence.refl _, rfl⟩
  apply (SameOutcome.foldlM ?_ same).bind
  · intro progress reached same
    exact .ok ⟨same.code, same.data⟩
  · intro action _ progress reached same
    exact Site.advance_agree congruence tables _ action same

end Compilation

end Cartridge.Emit
