import Cartridge.Proofs.Planning

/-!
The code of a compiled body, piece by piece.

Each action of the plan yields the labels of its instructions and a fragment of code. Calls are
taken apart here as other instructions were before, into all the ways in which making their code can
succeed. What a body consists of is then a row of pieces, through which the count of numbered labels
is handed on.
-/

namespace Cartridge.Emit

open Asm (Line Symbol)
open Memory (Allocation)
open Program (Body Subroutine)

namespace Site

/-- Code that pulls values into slots. -/
def Passes (site : Site) (code : List Line) : Prop :=
  ∃ moves : List (Allocation × Nat), (∀ move ∈ moves, move.1 ∈ site.memory.allocations) ∧
    code = moves.flatMap fun move => storeLines move.1.symbol move.2

theorem passes_of_storeArguments {site : Site} {index : Nat} {callee : Subroutine}
    {arguments : List (ValueType × Nat)} {stack : Code.EvalStack}
    {result : List Line × Code.EvalStack}
    (made : site.storeArguments index callee arguments stack = .ok result) :
    site.Passes result.1 := by
  induction arguments generalizing stack result with
  | nil =>
    obtain rfl := Except.ok.inj made
    exact ⟨[], by simp, rfl⟩
  | cons argument arguments ih =>
    obtain ⟨popped, -, next⟩ := bind_eq_ok.mp made
    simp only at next
    split at next
    next => contradiction
    next allocation found =>
      obtain ⟨rest, stored, last⟩ := bind_eq_ok.mp next
      obtain rfl := pure_eq_ok.mp last
      obtain ⟨moves, allocated, code⟩ := ih stored
      refine ⟨(allocation, argument.1.size) :: moves, ?_, by rw [code, List.flatMap_cons]⟩
      intro move member
      rcases List.mem_cons.mp member with rfl | later
      · exact mem_of_find? found
      · exact allocated move later

inductive Evaluated (site : Site) (labels : Nat) : Fragment → Prop
  | convert {byte stack} :
    Evaluated site labels { code := [.immediate .lda byte, .op .pha], stack, labels }
  | data {bytes stack} :
    Evaluated site labels
      { code := [.on .lda .immediate (.lowByte (site.numberedLabel "Data" (labels + 1))), .op .pha,
          .on .lda .immediate (.highByte (site.numberedLabel "Data" (labels + 1))), .op .pha]
        data := [.label (site.numberedLabel "Data" (labels + 1)), .directive (.bytes bytes)]
        stack
        labels := labels + 1 }

/-- A call is executed on the constants that are loaded before it, one for each parameter. -/
theorem execute_eq_ok {site : Site} {start call labels : Nat} {stack : Code.EvalStack}
    {fragment : Fragment} (made : site.execute start call labels stack = .ok fragment) :
    ∃ id callee evaluator bytes,
      site.subroutine.instructions[call]?.bind Code.Instruction.callee? = some id ∧
      site.types.subroutine? id = some callee ∧
      callee.intrinsic? = some (.compileTime evaluator) ∧
      constantBytes? ((site.subroutine.instructions.drop start).take (call - start)) = some bytes ∧
      bytes.length = callee.parameters.length ∧
      site.evaluate call labels stack callee evaluator bytes = .ok fragment := by
  simp only [execute] at made
  split at made
  next => contradiction
  next id calls =>
    split at made
    next => contradiction
    next callee found =>
      split at made
      next evaluator marked =>
        split at made
        next => contradiction
        next bytes constant =>
          split at made
          next => contradiction
          next length =>
            exact ⟨id, callee, evaluator, bytes, calls, found, marked, constant,
              Decidable.not_not.mp length, made⟩
      next => contradiction

theorem evaluated_of_execute {site : Site} {start call labels : Nat} {stack : Code.EvalStack}
    {fragment : Fragment} (made : site.execute start call labels stack = .ok fragment) :
    Evaluated site labels fragment := by
  obtain ⟨-, callee, evaluator, bytes, -, -, -, -, -, evaluates⟩ := execute_eq_ok made
  unfold evaluate at evaluates
  split at evaluates
  next =>
    split at evaluates
    next => contradiction
    next =>
      obtain rfl := Except.ok.inj evaluates
      exact .convert
  next => contradiction
  next =>
    obtain rfl := Except.ok.inj evaluates
    exact .data

/-- What is done with the result of a call. -/
def resultLines (callee : Subroutine) : List Line :=
  if callee.returns.isVoid then [] else [.op .pha]

inductive Called (site : Site) (labels : Nat) (callee : Subroutine) : Fragment → Prop
  | store {symbol strobe stack}
    (marked : callee.intrinsic? = some (.storeToSymbol symbol strobe)) :
    Called site labels callee
      { code := (if strobe then [] else [.op .pla]) ++ [.direct .sta symbol], stack, labels }
  | register {register stack} (marked : callee.intrinsic? = some (.loadToRegister register)) :
    Called site labels callee
      { code := .op .pla :: register.transfer?.toList.map .op, stack, labels }
  | load {symbol stack} (marked : callee.intrinsic? = some (.loadFromSymbol symbol)) :
    Called site labels callee { code := [.direct .lda symbol, .op .pha], stack, labels }
  | evaluated {fragment} (evaluated : Evaluated site labels fragment) :
    Called site labels callee fragment
  | inlined {body passing stack} (marked : callee.intrinsic? = some .alwaysInline)
    (present : callee.body? = some body) (passes : site.Passes passing) :
    Called site labels callee
      { code := passing ++ (splice (site.numberedLabel "Inline" (labels + 1)) body).code ++
          resultLines callee
        data := (splice (site.numberedLabel "Inline" (labels + 1)) body).data
        stack
        labels := labels + 1 }
  | jumped {passing stack} (kept : callee.replacesCall = false)
    (apart : callee.intrinsic? ≠ some .alwaysInline) (passes : site.Passes passing) :
    Called site labels callee
      { code := passing ++ [.direct .jsr callee.label] ++ resultLines callee, stack, labels }

theorem called_of_callBody {site : Site} {index labels : Nat} {stack : Code.EvalStack}
    {callee : Subroutine} {fragment : Fragment} (kept : callee.replacesCall = false)
    (made : site.callBody index labels stack callee = .ok fragment) :
    Called site labels callee fragment := by
  unfold callBody at made
  split at made
  next => contradiction
  next =>
    obtain ⟨⟨passing, below⟩, stored, next⟩ := bind_eq_ok.mp made
    obtain ⟨transferred, transfers, last⟩ := bind_eq_ok.mp next
    have passes := passes_of_storeArguments stored
    have result : ∃ rest, fragment =
        { transferred with
          code := passing ++ transferred.code ++ resultLines callee, stack := rest } := by
      split at last
      next void =>
        obtain rfl := pure_eq_ok.mp last
        exact ⟨transferred.stack, by simp [resultLines, void]⟩
      next filled =>
        obtain rfl := pure_eq_ok.mp last
        exact ⟨callee.returns :: below, by simp [resultLines, filled]⟩
    obtain ⟨rest, rfl⟩ := result
    unfold transfer at transfers
    split at transfers
    next marked =>
      split at transfers
      next => contradiction
      next body present =>
        obtain rfl := Except.ok.inj transfers
        exact .inlined marked present passes
    next apart =>
      obtain rfl := Except.ok.inj transfers
      exact .jumped kept apart passes

theorem replacesCall_eq_false {callee : Subroutine}
    (strobed : ∀ symbol, callee.intrinsic? ≠ some (.storeToSymbol symbol true))
    (stored : ∀ symbol, callee.intrinsic? ≠ some (.storeToSymbol symbol false))
    (toRegister : ∀ register, callee.intrinsic? ≠ some (.loadToRegister register))
    (loaded : ∀ symbol, callee.intrinsic? ≠ some (.loadFromSymbol symbol))
    (executed : ∀ evaluator, callee.intrinsic? ≠ some (.compileTime evaluator)) :
    callee.replacesCall = false := by
  unfold Subroutine.replacesCall
  cases marked : callee.intrinsic? with
  | none => rfl
  | some intrinsic =>
    cases intrinsic with
    | storeToSymbol symbol strobe =>
      cases strobe with
      | true => exact absurd marked (strobed symbol)
      | false => exact absurd marked (stored symbol)
    | loadToRegister register => exact absurd marked (toRegister register)
    | loadFromSymbol symbol => exact absurd marked (loaded symbol)
    | compileTime evaluator => exact absurd marked (executed evaluator)
    | _ => rfl

theorem called_of_call {site : Site} {index labels : Nat} {stack : Code.EvalStack}
    {callee : Subroutine} {fragment : Fragment}
    (made : site.call index labels stack callee = .ok fragment) :
    Called site labels callee fragment := by
  unfold call at made
  split at made
  next symbol marked =>
    obtain rfl := Except.ok.inj made
    exact .store marked
  next symbol marked =>
    obtain ⟨rest, -, last⟩ := bind_eq_ok.mp made
    obtain rfl := pure_eq_ok.mp last
    exact .store marked
  next register marked =>
    obtain ⟨rest, -, last⟩ := bind_eq_ok.mp made
    obtain rfl := pure_eq_ok.mp last
    exact .register marked
  next symbol marked =>
    obtain rfl := Except.ok.inj made
    exact .load marked
  next => exact .evaluated (evaluated_of_execute made)
  next strobed stored toRegister loaded executed =>
    exact called_of_callBody
      (replacesCall_eq_false strobed stored toRegister loaded executed) made

inductive Performed (site : Site) (labels : Nat) : Action → Fragment → Prop
  | compiled {index instruction stack fragment}
    (found : site.subroutine.instructions[index]? = some instruction)
    (lowered : Lowered site index labels instruction stack fragment) :
    Performed site labels (.compile index) fragment
  | executed {start call fragment} (evaluated : Evaluated site labels fragment) :
    Performed site labels (.execute start call) fragment

/-- Actions with their fragments, from one count of labels to another. -/
inductive Row (site : Site) : Nat → List (Action × Fragment) → Nat → Prop
  | nil {labels} : Row site labels [] labels
  | cons {labels action fragment pieces last} (performed : Performed site labels action fragment)
    (rest : Row site fragment.labels pieces last) :
    Row site labels ((action, fragment) :: pieces) last

def pieceCode (site : Site) (piece : Action × Fragment) : List Line :=
  site.actionLabels (Code.targets site.subroutine.instructions) piece.1 ++ piece.2.code

theorem row_of_foldlM {site : Site} {actions : List Action} {before done : Progress}
    (known : ∀ index, .compile index ∈ actions →
      ∃ instruction, site.subroutine.instructions[index]? = some instruction)
    (folded : actions.foldlM (site.advance (Code.targets site.subroutine.instructions)) before =
      .ok done) :
    ∃ pieces, site.Row before.labels pieces done.labels ∧ pieces.map Prod.fst = actions ∧
      done.code = before.code ++ pieces.flatMap site.pieceCode ∧
      done.data = before.data ++ pieces.flatMap fun piece => piece.2.data := by
  induction actions generalizing before with
  | nil =>
    obtain rfl := pure_eq_ok.mp folded
    exact ⟨[], .nil, rfl, by simp, by simp⟩
  | cons action actions ih =>
    rw [List.foldlM_cons] at folded
    obtain ⟨between, advanced, rest⟩ := bind_eq_ok.mp folded
    obtain ⟨fragment, performs, made⟩ := bind_eq_ok.mp advanced
    have performed : Performed site before.labels action fragment := by
      cases action with
      | compile index =>
        obtain ⟨instruction, found⟩ := known index List.mem_cons_self
        simp only [perform, found] at performs
        exact .compiled found (lowered_of_step performs)
      | execute start call => exact .executed (evaluated_of_execute performs)
    obtain ⟨pieces, row, same, code, data⟩ :=
      ih (fun index member => known index (List.mem_cons_of_mem _ member)) rest
    obtain rfl := pure_eq_ok.mp made
    refine ⟨(action, fragment) :: pieces, .cons performed row, by rw [List.map_cons, same], ?_, ?_⟩
    · rw [code, List.flatMap_cons, pieceCode, List.append_assoc, List.append_assoc,
        List.append_assoc]
    · rw [data, List.flatMap_cons, List.append_assoc]

/-- The code of each action is part of what is compiled. -/
theorem performed_of_foldlM {site : Site} {actions : List Action} {before done : Progress}
    (known : ∀ index, .compile index ∈ actions →
      ∃ instruction, site.subroutine.instructions[index]? = some instruction)
    (folded : actions.foldlM (site.advance (Code.targets site.subroutine.instructions)) before =
      .ok done)
    {action : Action} (member : action ∈ actions) :
    ∃ labels stack fragment, site.perform action labels stack = .ok fragment ∧
      fragment.code <:+: done.code ∧ fragment.data <:+: done.data := by
  obtain ⟨earlier, later, rfl⟩ := List.append_of_mem member
  rw [List.foldlM_append] at folded
  obtain ⟨reached, -, rest⟩ := bind_eq_ok.mp folded
  rw [List.foldlM_cons] at rest
  obtain ⟨between, advanced, last⟩ := bind_eq_ok.mp rest
  obtain ⟨fragment, performs, made⟩ := bind_eq_ok.mp advanced
  obtain rfl := pure_eq_ok.mp made
  obtain ⟨pieces, -, -, code, data⟩ :=
    row_of_foldlM (fun index inside => known index (by simp [inside])) last
  exact ⟨_, _, fragment, performs, ⟨_, _, code.symm⟩, ⟨_, _, data.symm⟩⟩

theorem row_of_compile {site : Site} {body : Body} (compiled : site.compile = .ok body) :
    ∃ pieces last, site.Row 0 pieces last ∧
      (pieces.map Prod.fst).flatMap Action.indices =
        List.range site.subroutine.instructions.length ∧
      body.code = pieces.flatMap site.pieceCode ∧
      body.data = pieces.flatMap fun piece => piece.2.data := by
  obtain ⟨actions, made, folded⟩ := bind_eq_ok.mp compiled
  obtain ⟨done, advanced, result⟩ := bind_eq_ok.mp folded
  have planned := plan_eq_ok made
  obtain ⟨pieces, row, same, code, data⟩ := row_of_foldlM (fun _ => planned.found) advanced
  obtain rfl := pure_eq_ok.mp result
  exact ⟨pieces, done.labels, row, by rw [same, planned.indices], by simpa using code,
    by simpa using data⟩

end Site

end Cartridge.Emit
