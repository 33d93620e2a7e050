import Cartridge.Proofs.Supply

/-!
What can still go wrong once a module is resolved.

A resolved program may ask for what the machine cannot do. It never refers to what is not there, so
the faults that say so are out of reach of all later phases. The argument follows the code: a result
is late when its fault, if it is one, is of the kinds that remain, and being late is composed like
the results themselves.
-/

namespace Cartridge.Program

/-- Obstacles that only a wrong plan could meet. -/
def Obstacle.isInternal : Obstacle → Bool
  | .notCall => true
  | .notCompileTime _ => true
  | _ => false

/-- The faults that a resolved program can have. -/
def Fault.isLate : Fault → Bool
  | .recursion _ _ => true
  | .zeroPageRange _ _ => true
  | .outOfMemory _ _ => true
  | .missingImplementation _ _ => true
  | .unsupportedOpcode _ _ _ => true
  | .unsupported _ _ obstacle => !obstacle.isInternal
  | .stackUnderflow _ _ => true
  | .nonConstantArgument _ _ _ _ => true
  | _ => false

def Late {α : Type} (result : Except Fault α) : Prop :=
  ∀ fault, result = .error fault → fault.isLate = true

section Composition

variable {α β : Type}

theorem late_ok {value : α} : Late (.ok value) := by
  intro fault failed
  contradiction

theorem late_error {fault : Fault} (late : fault.isLate = true) :
    Late (.error fault : Except Fault α) := by
  intro other same
  rwa [← Except.error.inj same]

theorem Late.bind {first : Except Fault α} {next : α → Except Fault β} (late : Late first)
    (rest : ∀ value, first = .ok value → Late (next value)) : Late (first >>= next) := by
  cases result : first with
  | error fault => exact late_error (late fault result)
  | ok value => exact rest value result

theorem late_foldlM {step : β → α → Except Fault β} {items : List α} {start : β}
    (late : ∀ item ∈ items, ∀ state, Late (step state item)) : Late (items.foldlM step start) := by
  induction items generalizing start with
  | nil => exact late_ok
  | cons item items ih =>
    rw [List.foldlM_cons]
    refine (late item List.mem_cons_self start).bind fun between _ => ?_
    exact ih fun other member => late other (List.mem_cons_of_mem _ member)

theorem late_mapM {f : α → Except Fault β} {items : List α}
    (late : ∀ item ∈ items, Late (f item)) : Late (items.mapM f) := by
  induction items with
  | nil => exact late_ok
  | cons item items ih =>
    rw [List.mapM_cons]
    refine (late item List.mem_cons_self).bind fun _ _ => ?_
    refine (ih fun other member => late other (List.mem_cons_of_mem _ member)).bind fun _ _ => ?_
    exact late_ok

end Composition

end Cartridge.Program

namespace Cartridge.Emit

open Asm (Mnemonic Symbol)
open Code (EvalStack Opcode)
open Program

namespace Site

section Parts

variable {site : Site} {index labels : Nat} {stack : EvalStack}

theorem late_unsupported {α : Type} {obstacle : Obstacle} (outer : obstacle.isInternal = false) :
    Late (site.unsupported index obstacle : Except Fault α) := by
  apply late_error
  rw [Fault.isLate, outer, Bool.not_false]

theorem late_pop : Late (site.pop index stack) := by
  cases stack with
  | nil => exact late_error rfl
  | cons => exact late_ok

theorem late_popByte : Late (site.popByte index stack) := by
  refine late_pop.bind fun popped _ => ?_
  simp only
  split
  next => exact late_ok
  next => exact late_unsupported rfl

theorem late_popAddress : Late (site.popAddress index stack) := by
  refine late_pop.bind fun popped _ => ?_
  simp only
  split
  next => exact late_ok
  next => exact late_unsupported rfl

theorem late_byteOffset {offset : Nat} : Late (site.byteOffset index offset) := by
  unfold byteOffset
  split
  next => exact late_ok
  next => exact late_unsupported rfl

theorem late_storeSlot {symbol : Symbol} {type : ValueType} :
    Late (site.storeSlot index symbol type labels stack) :=
  late_pop.bind fun _ _ => late_ok

theorem late_arithmetic {carry operation : Mnemonic} :
    Late (site.arithmetic index carry operation labels stack) :=
  late_popByte.bind fun _ _ => late_popByte.bind fun _ _ => late_ok

theorem late_compare {stem : String} {branches : List (Mnemonic × Bool)} :
    Late (site.compare index stem branches labels stack) :=
  late_popByte.bind fun _ _ => late_popByte.bind fun _ _ => late_ok

theorem late_duplicate : Late (site.duplicate index labels stack) := by
  refine late_pop.bind fun popped _ => ?_
  simp only
  split
  next => exact late_ok
  next => exact late_ok
  next => exact late_unsupported rfl

theorem late_branchOn {branch : Mnemonic} {target : Nat} :
    Late (site.branchOn index branch target labels stack) :=
  late_popByte.bind fun _ _ => late_ok

theorem late_ret : Late (site.ret index labels stack) := by
  simp only [ret]
  split
  next => exact late_ok
  next => exact late_pop.bind fun _ _ => late_ok
  next => exact late_unsupported rfl

theorem late_initObject {type : ValueType} : Late (site.initObject index type labels stack) :=
  late_byteOffset.bind fun _ _ => late_popAddress.bind fun _ _ => late_ok

theorem late_storeFieldLines {size offset : Nat} :
    Late (site.storeFieldLines index size offset) := by
  unfold storeFieldLines
  split
  next => exact late_ok
  next => exact late_ok
  next => exact late_byteOffset.bind fun _ _ => late_ok

theorem late_loadConstant {value : Int} (fits : 0 ≤ value ∧ value ≤ 0xFF) :
    Late (site.loadConstant index value labels stack) := by
  rw [loadConstant, if_pos fits]
  exact late_ok

theorem late_evaluate {callee : Subroutine} {evaluator : Source.Evaluator} {bytes : List UInt8} :
    Late (site.evaluate index labels stack callee evaluator bytes) := by
  unfold evaluate
  split
  next =>
    split
    next => exact late_unsupported rfl
    next => exact late_ok
  next => exact late_error rfl
  next => exact late_ok

/-- A call that is executed is one, and of a subroutine that the compiler can execute. -/
theorem late_execute {start call : Nat} {instruction : Code.Instruction} {callee : Subroutine}
    (found : site.subroutine.instructions[call]? = some instruction)
    (executed : executedCallee? site.types instruction = some callee) :
    Late (site.execute start call labels stack) := by
  obtain ⟨id, evaluator, calls, present, marked⟩ := executedCallee?_eq_some.mp executed
  simp only [execute, found, Option.bind_some, calls, present, marked]
  split
  next => exact late_error rfl
  next =>
    split
    next => exact late_error rfl
    next => exact late_evaluate

end Parts

section Lookups

variable {site : Site} {index labels : Nat} {stack : EvalStack} {opcode : Opcode}

theorem late_localSlot (supplied : site.Supplied) {slot : UInt16}
    (inside : slot.toNat < site.subroutine.locals.length) : Late (site.localSlot slot) := by
  obtain ⟨allocation, found⟩ := Option.isSome_iff_exists.mp (supplied.locals slot inside)
  rw [localSlot, List.getElem?_eq_getElem inside, found]
  exact late_ok

theorem late_parameterSlot (supplied : site.Supplied) {slot : UInt16}
    (inside : slot.toNat < site.subroutine.parameters.length) :
    Late (site.parameterSlot slot) := by
  obtain ⟨allocation, found⟩ := Option.isSome_iff_exists.mp (supplied.parameters slot inside)
  rw [parameterSlot, List.getElem?_eq_getElem inside, found]
  exact late_ok

theorem late_field {id : FieldId} (present : (site.types.field? id).isSome = true) :
    Late (site.field index opcode id) := by
  obtain ⟨field, found⟩ := Option.isSome_iff_exists.mp present
  rw [Site.field, found]
  exact late_ok

theorem late_staticField {id : FieldId} (present : (site.types.field? id).isSome = true) :
    Late (site.staticField index opcode id) := by
  refine (late_field present).bind fun field _ => ?_
  split
  next => exact late_ok
  next => exact late_unsupported rfl

theorem late_instanceField {id : FieldId} (present : (site.types.field? id).isSome = true) :
    Late (site.instanceField index opcode id) := by
  refine (late_field present).bind fun field _ => ?_
  split
  next => exact late_unsupported rfl
  next => exact late_byteOffset.bind fun _ _ => late_ok

theorem late_loadStaticAddress {id : FieldId} (present : (site.types.field? id).isSome = true) :
    Late (site.loadStaticAddress index id labels stack) := by
  refine (late_staticField present).bind fun found _ => ?_
  simp only
  split
  next => exact late_ok
  next => exact late_unsupported rfl

theorem late_storeArguments {callee : Subroutine} {arguments : List (ValueType × Nat)}
    (placed : ∀ argument ∈ arguments,
      (site.memory.argument? callee.id (UInt16.ofNat argument.2)).isSome = true) :
    Late (site.storeArguments index callee arguments stack) := by
  induction arguments generalizing stack with
  | nil => exact late_ok
  | cons argument arguments ih =>
    obtain ⟨allocation, found⟩ := Option.isSome_iff_exists.mp (placed argument List.mem_cons_self)
    refine late_pop.bind fun popped _ => ?_
    simp only [found]
    refine Late.bind ?_ fun _ _ => late_ok
    exact ih fun other member => placed other (List.mem_cons_of_mem _ member)

theorem late_callBody {callee : Subroutine} (bodied : callee.body?.isSome = true)
    (placed : ∀ n < callee.parameters.length,
      (site.memory.argument? callee.id (UInt16.ofNat n)).isSome = true) :
    Late (site.callBody index labels stack callee) := by
  unfold callBody
  split
  next => exact late_unsupported rfl
  next =>
    refine Late.bind (late_storeArguments ?_) fun stored _ => ?_
    · intro argument member
      have counted := List.mk_mem_zipIdx_iff_getElem?.mp (List.mem_reverse.mp member)
      exact placed argument.2 (List.getElem?_eq_some_iff.mp counted).1
    · refine Late.bind ?_ fun transferred _ => ?_
      · obtain ⟨body, present⟩ := Option.isSome_iff_exists.mp bodied
        unfold transfer
        split
        next =>
          rw [present]
          exact late_ok
        next => exact late_ok
      · split <;> exact late_ok

theorem late_call (supplied : site.Supplied) {instruction : Code.Instruction} {id : SubroutineId}
    {callee : Subroutine} (found : site.subroutine.instructions[index]? = some instruction)
    (calls : instruction.callee? = some id) (present : site.types.subroutine? id = some callee) :
    Late (site.call index labels stack callee) := by
  unfold call
  split
  next => exact late_ok
  next => exact late_popByte.bind fun _ _ => late_ok
  next => exact late_popByte.bind fun _ _ => late_ok
  next => exact late_ok
  next evaluator marked =>
    exact late_execute found (executedCallee?_eq_some.mpr ⟨id, evaluator, calls, present, marked⟩)
  next strobed stored toRegister loaded executed =>
    have kept := replacesCall_eq_false strobed stored toRegister loaded executed
    obtain ⟨bodied, placed⟩ :=
      supplied.callees instruction (List.mem_of_getElem? found) id callee calls present kept
    exact late_callBody bodied placed

/-- The operand is of the kind that the opcode takes, so no wrong one is met. -/
theorem late_step (supplied : site.Supplied) {instruction : Code.Instruction}
    (found : site.subroutine.instructions[index]? = some instruction) :
    Late (site.step index instruction labels stack) := by
  obtain ⟨kind, refers⟩ := supplied.sound instruction (List.mem_of_getElem? found)
  obtain ⟨opcode, operand⟩ := instruction
  cases opcode with
  | nop => exact late_ok
  | loadConstant =>
    cases operand with
    | constant value => exact late_loadConstant refers
    | _ => cases kind rfl
  | loadLocal =>
    cases operand with
    | «local» slot => exact (late_localSlot supplied refers).bind fun _ _ => late_ok
    | _ => cases kind rfl
  | loadArgument =>
    cases operand with
    | argument slot => exact (late_parameterSlot supplied refers).bind fun _ _ => late_ok
    | _ => cases kind rfl
  | storeLocal =>
    cases operand with
    | «local» slot => exact (late_localSlot supplied refers).bind fun _ _ => late_storeSlot
    | _ => cases kind rfl
  | storeArgument =>
    cases operand with
    | argument slot => exact (late_parameterSlot supplied refers).bind fun _ _ => late_storeSlot
    | _ => cases kind rfl
  | loadStaticField =>
    cases operand with
    | field id => exact (late_staticField refers).bind fun _ _ => late_ok
    | _ => cases kind rfl
  | storeStaticField =>
    cases operand with
    | field id => exact (late_staticField refers).bind fun _ _ => late_storeSlot
    | _ => cases kind rfl
  | loadStaticFieldAddress =>
    cases operand with
    | field id => exact late_loadStaticAddress refers
    | _ => cases kind rfl
  | loadField =>
    cases operand with
    | field id =>
      exact (late_instanceField refers).bind fun _ _ => late_popAddress.bind fun _ _ => late_ok
    | _ => cases kind rfl
  | loadFieldAddress =>
    cases operand with
    | field id =>
      exact (late_instanceField refers).bind fun _ _ => late_popAddress.bind fun _ _ => late_ok
    | _ => cases kind rfl
  | storeField =>
    cases operand with
    | field id =>
      refine (late_instanceField refers).bind fun _ _ => late_pop.bind fun _ _ => ?_
      exact late_popAddress.bind fun _ _ => late_storeFieldLines.bind fun _ _ => late_ok
    | _ => cases kind rfl
  | initObject =>
    cases operand with
    | type type => exact late_initObject
    | _ => cases kind rfl
  | add => exact late_arithmetic
  | subtract => exact late_arithmetic
  | compareGreater => exact late_compare
  | compareEqual => exact late_compare
  | compareLess => exact late_compare
  | convert => exact late_popByte.bind fun _ _ => late_ok
  | duplicate => exact late_duplicate
  | pop => exact late_pop.bind fun _ _ => late_ok
  | branch =>
    cases operand with
    | target target => exact late_ok
    | _ => cases kind rfl
  | branchIfTrue =>
    cases operand with
    | target target => exact late_branchOn
    | _ => cases kind rfl
  | branchIfFalse =>
    cases operand with
    | target target => exact late_branchOn
    | _ => cases kind rfl
  | call =>
    cases operand with
    | method id =>
      obtain ⟨callee, present⟩ := Option.isSome_iff_exists.mp refers
      simp only [step, present]
      exact late_call supplied found rfl present
    | _ => cases kind rfl
  | ret => exact late_ret
  | other name => exact late_error rfl

theorem late_plan : Late (plan site.types site.subroutine) := by
  refine Late.bind (Late.bind (late_mapM fun entry _ => ?_) fun _ _ => late_ok) fun _ _ => late_ok
  unfold groupAt?
  split
  next => exact late_ok
  next =>
    simp only
    split
    next => exact late_ok
    next => exact late_error rfl

theorem late_compile (supplied : site.Supplied) : Late site.compile := by
  refine late_plan.bind fun actions made => ?_
  have planned := plan_eq_ok made
  refine Late.bind (late_foldlM fun action member progress => ?_) fun _ _ => late_ok
  refine Late.bind ?_ fun _ _ => late_ok
  cases action with
  | compile index =>
    obtain ⟨instruction, found, -⟩ := planned.compiled index member
    simp only [perform, found]
    exact late_step supplied found
  | execute start call =>
    obtain ⟨instruction, callee, found, executed⟩ := planned.executed start call member
    exact late_execute found executed

end Lookups

end Site

theorem late_subroutineBody {library : Asm.Library} {optimize : Bool} {site : Site}
    (supplied : site.subroutine.walksBody = true → site.Supplied)
    (kept : site.subroutine.replacesCall = false) :
    Late (subroutineBody library optimize site) := by
  unfold subroutineBody
  split
  next =>
    split
    next => exact late_ok
    next => exact late_error rfl
  next => exact late_ok
  next provided ignored =>
    have walked := walksBody_of_kept kept provided ignored
    exact Late.bind (Site.late_compile (supplied walked)) fun _ _ => late_ok

end Cartridge.Emit

namespace Cartridge.Memory

open Program

theorem late_foldlM_allocate {allocator : Allocator} {requests : List Request} :
    Late (requests.foldlM Allocator.allocate allocator) := by
  induction requests generalizing allocator with
  | nil => exact late_ok
  | cons request requests ih =>
    rw [List.foldlM_cons]
    refine Late.bind ?_ fun _ _ => ih
    unfold Allocator.allocate
    split
    next => exact late_error rfl
    next => exact late_ok

theorem late_allocate {types : TypeTable} {graph : CallGraph} {ram : Ram} :
    Late (Map.allocate types graph ram) := by
  unfold Map.allocate
  split
  next => exact late_error rfl
  next => exact late_foldlM_allocate.bind fun _ _ => late_ok

end Cartridge.Memory

namespace Cartridge

open Emit (Compiles bind_eq_ok)
open Program

theorem single_eq_error {α : Type} {result : Except Fault α} {faults : List Fault} :
    single result = .error faults ↔ ∃ fault, result = .error fault ∧ faults = [fault] := by
  cases result <;> simp [single, eq_comm]

theorem bind_eq_error {ε α β : Type} {first : Except ε α} {next : α → Except ε β} {error : ε} :
    (first >>= next) = .error error ↔
      first = .error error ∨ ∃ value, first = .ok value ∧ next value = .error error := by
  cases first <;> simp [bind, Except.bind]

theorem callGraph_eq_error {types : TypeTable} {faults : List Fault}
    (failed : callGraph types = .error faults) : ∀ fault ∈ faults, fault.isLate = true := by
  unfold callGraph at failed
  split at failed
  next => contradiction
  next cycles _ =>
    obtain rfl := Except.error.inj failed
    intro fault member
    obtain ⟨cycle, -, rfl⟩ := List.mem_map.mp member
    rfl

theorem late_compileAll {types : TypeTable} {graph : CallGraph} {ram : Memory.Ram}
    {memory : Memory.Map} (wellFormed : types.WellFormed)
    (built : CallGraph.build types = .ok graph)
    (allocated : Memory.Map.allocate types graph ram = .ok memory) (library : Asm.Library)
    (optimize : Bool) : Late (Emit.compileAll types graph memory library optimize) := by
  rcases compileAll_cases wellFormed built memory library optimize with
    ⟨bodies, -, complete⟩ |
    ⟨front, id, back, bodies, subroutine, fault, split, ran, found, kept, failed, stopped⟩
  · rw [complete]
    exact late_ok
  · rw [stopped]
    refine late_error (Emit.late_subroutineBody (fun walked => ?_) kept fault failed)
    exact Emit.supplied_of_compiles wellFormed built allocated split ran found walked

/-- Once a module is resolved, the later phases find all that they look up, and fail only for what
they cannot do: what is reachable is in the table, memory answers for all of it, and each body is
compiled where its operands, slots, blocks, temporaries and the bodies of its callees exist. -/
theorem compile_fails_late {module : Source.Module} {program : Program}
    (resolved : Program.ofModule module = .ok program) (library : Asm.Library)
    (options : Options) :
    (∀ faults, compile module library options = .error faults →
      ∀ fault ∈ faults, fault.isLate = true) ∧
    (∀ id, Reachable program.types id → (program.types.subroutine? id).isSome = true) ∧
    ∀ graph memory, CallGraph.build program.types = .ok graph →
      Memory.Map.allocate program.types graph options.ram = .ok memory →
      ∀ front id rest bodies, graph.order = front ++ id :: rest →
        Compiles program.types memory library options.optimize front bodies →
        ∃ subroutine, (program.types.withBodies bodies).subroutine? id = some subroutine ∧
          (subroutine.walksBody = true →
            Emit.Site.Supplied ⟨program.types.withBodies bodies, memory, subroutine⟩) := by
  obtain ⟨wellFormed, -⟩ := ofModule_eq_ok resolved
  refine ⟨?_, ?_, ?_⟩
  · intro faults failed
    rcases bind_eq_error.mp failed with unresolved | ⟨same, found, next⟩
    · rw [resolved] at unresolved
      contradiction
    obtain rfl := Except.ok.inj (resolved.symm.trans (single_eq_ok.mp found))
    rcases bind_eq_error.mp next with cyclic | ⟨graph, built, more⟩
    · exact callGraph_eq_error cyclic
    rcases bind_eq_error.mp more with full | ⟨memory, allocated, further⟩
    · obtain ⟨fault, refused, rfl⟩ := single_eq_error.mp full
      simpa using Memory.late_allocate fault refused
    rcases bind_eq_error.mp further with stopped | ⟨types, -, made⟩
    · obtain ⟨fault, refused, rfl⟩ := single_eq_error.mp stopped
      simpa using late_compileAll wellFormed (callGraph_eq_ok.mp built)
        (single_eq_ok.mp allocated) library options.optimize fault refused
    · contradiction
  · intro id reachable
    exact Option.isSome_iff_exists.mpr (reachable.subroutine?_isSome wellFormed)
  · intro graph memory built allocated front id rest bodies split ran
    have contained : id ∈ graph.order := by simp [split]
    obtain ⟨subroutine, found⟩ :=
      ((CallGraph.mem_order built).mp contained).subroutine?_isSome wellFormed
    have fresh : bodies id = none := by
      refine ran.eq_none fun twice => ?_
      have distinct := CallGraph.order_nodup built
      rw [split] at distinct
      exact (List.nodup_append.mp distinct).2.2 _ twice _ List.mem_cons_self rfl
    have same : subroutine.withBody bodies = subroutine := by
      apply Subroutine.withBody_of_none (wellFormed.bodiless id subroutine found)
      rw [wellFormed.subroutineId id subroutine found, fresh]
    refine ⟨subroutine, ?_, fun walked => ?_⟩
    · rw [subroutine?_withBodies, found, Option.map_some, same]
    · exact Emit.supplied_of_compiles wellFormed built allocated split ran found walked

/-- The callee is inlined and takes an argument that its caller never pushes. -/
def starved : Source.Module :=
  { types := [{ name := "Game", subroutines :=
      [{ name := "Main", isEntry := true
         instructions := [⟨"call", some (.method ⟨"Game", "Twice"⟩)⟩, ⟨"ret", none⟩] },
       { name := "Twice", parameters := ["byte"], intrinsic? := some .alwaysInline
         instructions := [⟨"ret", none⟩] }] }] }

theorem compile_fails_late_starved :
    (∃ program, Program.ofModule starved = .ok program) ∧
      ∃ faults, compile starved {} {} = .error faults ∧ faults ≠ [] ∧
        ∀ fault ∈ faults, fault.isLate = true := by
  have accepted : (Program.ofModule starved).isOk = true := by decide +kernel
  have failed : (match compile starved {} {} with
      | .error faults => faults == [.stackUnderflow "Game::Main" 0]
      | .ok _ => false) = true := by
    decide +kernel
  cases resolved : Program.ofModule starved with
  | error fault =>
    rw [resolved] at accepted
    contradiction
  | ok program =>
    cases result : compile starved {} {} with
    | ok image =>
      rw [result] at failed
      contradiction
    | error faults =>
      rw [result] at failed
      have late := (compile_fails_late resolved {} {}).1 faults result
      exact ⟨⟨program, rfl⟩, faults, rfl, by simp_all, late⟩

end Cartridge
