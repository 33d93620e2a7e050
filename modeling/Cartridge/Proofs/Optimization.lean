import Cartridge.Proofs.Interchange
import Cartridge.Proofs.Parts
import Cartridge.Proofs.Planning

/-!
Bodies that are optimised as they are made.

A body is optimised before it is copied into its callers, and they are optimised again with the
copies in them. As long as copied bodies end with a return, this comes to the same as compiling
everything without the peephole rules and applying them to each body in the end.
-/

namespace Cartridge.Program.Subroutine

/-- The last instruction is a return. -/
def endsWithReturn (subroutine : Subroutine) : Bool :=
  subroutine.instructions.getLast?.any fun instruction => instruction.opcode == .ret

theorem endsWithReturn_eq_true {subroutine : Subroutine} :
    subroutine.endsWithReturn = true ↔
      ∃ front operand, subroutine.instructions = front ++ [⟨.ret, operand⟩] := by
  rw [endsWithReturn, Option.any_eq_true]
  constructor
  · rintro ⟨⟨opcode, operand⟩, last, returns⟩
    obtain ⟨front, split⟩ := List.getLast?_eq_some_iff.mp last
    obtain rfl := beq_iff_eq.mp returns
    exact ⟨front, operand, split⟩
  · rintro ⟨front, operand, split⟩
    exact ⟨_, List.getLast?_eq_some_iff.mpr ⟨front, split⟩, rfl⟩

end Cartridge.Program.Subroutine

namespace Cartridge.Emit

open Asm (Library Line Peephole.optimize)
open Program

section Return

variable {types : TypeTable} {subroutine : Subroutine} {front : List Code.Instruction}
  {operand : Code.Operand}

/-- A return is not part of any group, so the last action is to compile it. -/
theorem plan_of_return (split : subroutine.instructions = front ++ [⟨.ret, operand⟩])
    {actions : List Action} (made : plan types subroutine = .ok actions) :
    ∃ before, actions = before ++ [.compile front.length] := by
  have planned := plan_eq_ok made
  have taken : actions.flatMap Action.indices = List.range (front.length + 1) := by
    simp [planned.indices, split]
  rcases actions.eq_nil_or_concat' with rfl | ⟨before, action, rfl⟩
  · simp at taken
  refine ⟨before, ?_⟩
  rw [List.flatMap_append, List.flatMap_singleton] at taken
  have ends := congrArg List.getLast? taken
  rw [List.range_succ, List.getLast?_concat] at ends
  cases action with
  | compile index =>
    simp only [Action.indices, List.getLast?_concat, Option.some.injEq] at ends
    rw [ends]
  | execute start call =>
    have member : .execute start call ∈ before ++ [Action.execute start call] := by simp
    obtain ⟨instruction, callee, here, executed⟩ := planned.executed start call member
    have atLast : call = front.length := by
      obtain ⟨group, -, rfl, rfl⟩ := group_of_plan made member
      have ordered := group.ordered
      rw [Action.indices, show group.call + 1 - group.start = group.call - group.start + 1 by omega,
        List.range'_concat, Nat.one_mul, ← List.append_assoc, List.getLast?_concat] at ends
      have last := Option.some.inj ends
      omega
    rw [atLast, split, List.getElem?_concat_length] at here
    obtain rfl := Option.some.inj here
    exact absurd executed (by simp [executedCallee?, Code.Instruction.callee?])

theorem code_of_ret {site : Site} {index labels : Nat} {stack : Code.EvalStack}
    {fragment : Fragment} (made : site.ret index labels stack = .ok fragment) :
    ∃ lines, fragment.code = lines ++ [.op .rts] := by
  unfold Site.ret at made
  dsimp only at made
  split at made
  next =>
    obtain rfl := Except.ok.inj made
    exact ⟨[], rfl⟩
  next =>
    obtain ⟨popped, -, result⟩ := bind_eq_ok.mp made
    obtain rfl := pure_eq_ok.mp result
    exact ⟨[.op .pla], rfl⟩
  next => contradiction

theorem code_of_return {memory : Memory.Map} {body : Body}
    (split : subroutine.instructions = front ++ [⟨.ret, operand⟩])
    (compiled : Site.compile ⟨types, memory, subroutine⟩ = .ok body) :
    ∃ lines, body.code = lines ++ [.op .rts] := by
  obtain ⟨actions, made, folded⟩ := bind_eq_ok.mp compiled
  obtain ⟨done, advanced, result⟩ := bind_eq_ok.mp folded
  obtain rfl := pure_eq_ok.mp result
  obtain ⟨before, rfl⟩ := plan_of_return split made
  rw [List.foldlM_append] at advanced
  obtain ⟨progress, -, next⟩ := bind_eq_ok.mp advanced
  obtain ⟨ended, advances, same⟩ := bind_eq_ok.mp next
  obtain rfl := pure_eq_ok.mp same
  obtain ⟨fragment, performs, reached⟩ := bind_eq_ok.mp advances
  obtain rfl := pure_eq_ok.mp reached
  have here : subroutine.instructions[front.length]? = some ⟨.ret, operand⟩ := by
    rw [split, List.getElem?_concat_length]
  simp only [Site.perform, Action.anchor, here] at performs
  obtain ⟨lines, code⟩ := code_of_ret performs
  exact ⟨_, by rw [code, ← List.append_assoc]⟩

end Return

section Bodies

variable {types : TypeTable} {memory : Memory.Map} {library : Library} {optimize : Bool}
  {done : List SubroutineId} {bodies : Bodies} {subroutine : Subroutine}

theorem exists_return_of_compiles (wellFormed : types.WellFormed)
    (ran : Compiles types memory library optimize done bodies)
    (returns : ∀ id ∈ done, ∀ subroutine, types.subroutine? id = some subroutine →
      subroutine.intrinsic? = some .alwaysInline → subroutine.endsWithReturn = true)
    {id : SubroutineId} {body : Body} (found : types.subroutine? id = some subroutine)
    (present : bodies id = some body) (inline : subroutine.intrinsic? = some .alwaysInline) :
    ∃ lines, body.code = lines ++ [.op .rts] := by
  refine ran.forall_body (motive := fun subroutine body =>
    subroutine.intrinsic? = some .alwaysInline → ∃ lines, body.code = lines ++ [.op .rts])
    wellFormed ?_ found present inline
  intro subroutine body bodies found member kept before made inline
  have ends := returns _ member subroutine found inline
  obtain ⟨front, operand, split⟩ := Subroutine.endsWithReturn_eq_true.mp ends
  rcases subroutineBody_eq_ok kept made with
    ⟨implementation, marked, -⟩ | ⟨marked, -⟩ | ⟨-, compiled, done, rfl⟩
  · exact absurd (marked.symm.trans inline) (by simp)
  · exact absurd (marked.symm.trans inline) (by simp)
  · obtain ⟨lines, code⟩ := code_of_return split done
    cases optimize with
    | false => exact ⟨lines, code⟩
    | true =>
      refine ⟨Peephole.optimize lines, ?_⟩
      rw [← optimize_return, ← code]
      rfl

/-- Bodies that were compiled without the peephole rules, with the rules applied. -/
def optimizeBodies (types : TypeTable) (bodies : Bodies) : Bodies := fun id =>
  (bodies id).map (optimizeBody ((types.subroutine? id).any Subroutine.walksBody))

theorem optimizeBodies_update {id : SubroutineId} (found : types.subroutine? id = some subroutine)
    (body : Body) :
    optimizeBodies types (Function.update bodies id (some body)) =
      Function.update (optimizeBodies types bodies) id
        (some (optimizeBody subroutine.walksBody body)) := by
  funext other
  by_cases same : other = id
  · subst same
    simp [optimizeBodies, found]
  · simp [optimizeBodies, Function.update_of_ne same]

/-- Code that the peephole rules make the same of. -/
def SameOptimized (first second : List Line) : Prop :=
  Peephole.optimize first = Peephole.optimize second

theorem congruence_sameOptimized : Congruence SameOptimized where
  refl _ := rfl
  append front back := Asm.Peephole.optimize_append_congr front back

theorem interchangeable_optimizeBodies (wellFormed : types.WellFormed)
    (ends : ∀ id callee body, types.subroutine? id = some callee → bodies id = some body →
      callee.intrinsic? = some .alwaysInline → ∃ lines, body.code = lines ++ [.op .rts])
    (subroutine : Subroutine) :
    Interchangeable SameOptimized (types.withBodies bodies)
      (types.withBodies (optimizeBodies types bodies)) subroutine subroutine.instructions := by
  refine ⟨rfl, ?_, ?_⟩
  · intro instruction _ id _
    rw [field?_withBodies, field?_withBodies]
  · intro instruction _ id _
    rw [subroutine?_withBodies, subroutine?_withBodies]
    cases found : types.subroutine? id with
    | none => exact .none
    | some callee =>
      have named := wellFormed.subroutineId id callee found
      refine .some ⟨⟨callee.instructions, bodies callee.id, rfl⟩, ?_⟩
      intro inline place
      rw [Subroutine.intrinsic?_withBody] at inline
      have walked : callee.walksBody = true := CallGraph.walksBody_eq_true.mpr (.inr inline)
      rw [Subroutine.body?_withBody, Subroutine.body?_withBody, named, optimizeBodies, found,
        Option.any_some, walked]
      cases present : bodies id with
      | none => exact .none
      | some body =>
        obtain ⟨lines, returns⟩ := ends id callee body found present inline
        obtain ⟨code, data⟩ := optimize_splice returns place
        exact .some ⟨code.symm, data.symm⟩

theorem subroutineBody_optimized (memory : Memory.Map) (library : Library)
    (kept : subroutine.replacesCall = false)
    (tables : Interchangeable SameOptimized (types.withBodies bodies)
      (types.withBodies (optimizeBodies types bodies)) subroutine subroutine.instructions) :
    SameOutcome (fun plain optimized => optimized = optimizeBody subroutine.walksBody plain)
      (subroutineBody library false ⟨types.withBodies bodies, memory, subroutine⟩)
      (subroutineBody library true
        ⟨types.withBodies (optimizeBodies types bodies), memory, subroutine⟩) := by
  unfold subroutineBody
  dsimp only
  split
  next implementation marked =>
    have walked : subroutine.walksBody = false := by rw [Subroutine.walksBody, marked]
    cases library.get? implementation with
    | none => exact .error _
    | some code => exact .ok (by rw [walked]; rfl)
  next marked =>
    have walked : subroutine.walksBody = false := by rw [Subroutine.walksBody, marked]
    exact .ok (by rw [walked]; rfl)
  next compiled filled =>
    have walked := walksBody_of_kept kept compiled filled
    apply (compile_agree congruence_sameOptimized tables).bind
    rintro plain other ⟨code, data⟩
    refine .ok ?_
    rw [walked]
    exact (congrArg₂ Body.mk code data).symm

/-- The compilation of more subroutines with and without the peephole rules, side by side. -/
theorem Compiles.foldlM_optimized (ran : Compiles types memory library false done bodies)
    (wellFormed : types.WellFormed) {rest : List SubroutineId}
    (known : ∀ id ∈ rest, ∃ subroutine, types.subroutine? id = some subroutine)
    (distinct : (done ++ rest).Nodup)
    (returns : ∀ id ∈ done ++ rest, ∀ subroutine, types.subroutine? id = some subroutine →
      subroutine.intrinsic? = some .alwaysInline → subroutine.endsWithReturn = true) :
    SameOutcome (fun plain optimized => ∃ after, plain = types.withBodies after ∧
        optimized = types.withBodies (optimizeBodies types after))
      (rest.foldlM (compileInto memory library false) (types.withBodies bodies))
      (rest.foldlM (compileInto memory library true)
        (types.withBodies (optimizeBodies types bodies))) := by
  induction rest generalizing done bodies with
  | nil => exact .ok ⟨bodies, rfl, rfl⟩
  | cons id rest ih =>
    obtain ⟨subroutine, found⟩ := known id List.mem_cons_self
    have fresh : id ∉ done := fun twice =>
      (List.nodup_append.mp distinct).2.2 _ twice _ List.mem_cons_self rfl
    have absent : bodies id = none := ran.eq_none fresh
    have stillAbsent : optimizeBodies types bodies id = none := by rw [optimizeBodies, absent]; rfl
    have regroup : done ++ id :: rest = done ++ [id] ++ rest := by simp
    have others := fun other member => known other (List.mem_cons_of_mem _ member)
    have ends : ∀ id callee body, types.subroutine? id = some callee → bodies id = some body →
        callee.intrinsic? = some .alwaysInline → ∃ lines, body.code = lines ++ [.op .rts] :=
      fun id callee body => exists_return_of_compiles wellFormed ran fun id member =>
        returns id (List.mem_append_left _ member)
    rw [List.foldlM_cons, List.foldlM_cons, compileInto_withBodies wellFormed found absent,
      compileInto_withBodies wellFormed found stillAbsent]
    rw [regroup] at distinct returns
    cases kept : subroutine.replacesCall with
    | true => exact ih (.replaced ran found kept) others distinct returns
    | false =>
      have step := subroutineBody_optimized memory library kept
        (interchangeable_optimizeBodies wellFormed ends subroutine)
      simp only [Bool.false_eq_true, if_false, bind_assoc, pure_bind]
      apply step.remember.bind
      rintro body _ ⟨rfl, made⟩
      rw [← optimizeBodies_update found]
      exact ih (.compiled ran found kept fresh made) others distinct returns

end Bodies

end Cartridge.Emit

namespace Cartridge

open Asm (Peephole.optimize)
open Emit (SameOutcome)
open Program (CallGraph Subroutine)

/-- Optimising every body as soon as it is made gives what optimising all of them in the end gives,
though the copies in them were optimised before they were made. -/
theorem optimized_bodies {module : Source.Module} {program : Program} {graph : CallGraph}
    (resolved : Program.ofModule module = .ok program)
    (built : CallGraph.build program.types = .ok graph)
    (returns : ∀ id ∈ graph.order, ∀ subroutine, program.types.subroutine? id = some subroutine →
      subroutine.intrinsic? = some .alwaysInline → subroutine.endsWithReturn = true)
    (memory : Memory.Map) (library : Asm.Library) :
    (∀ fault, Emit.compileAll program.types graph memory library true = .error fault ↔
      Emit.compileAll program.types graph memory library false = .error fault) ∧
    ((∃ types, Emit.compileAll program.types graph memory library true = .ok types) ↔
      ∃ types, Emit.compileAll program.types graph memory library false = .ok types) ∧
    ∀ plain optimized, Emit.compileAll program.types graph memory library false = .ok plain →
      Emit.compileAll program.types graph memory library true = .ok optimized →
      ∀ id subroutine, plain.subroutine? id = some subroutine → subroutine.walksBody = true →
        optimized.subroutine? id = some
          { subroutine with body? := subroutine.body?.map fun body =>
              { code := Peephole.optimize body.code, data := body.data } } := by
  obtain ⟨wellFormed, -⟩ := Program.ofModule_eq_ok resolved
  have known : ∀ id ∈ graph.order, ∃ subroutine, program.types.subroutine? id = some subroutine :=
    fun id member => ((CallGraph.mem_order built).mp member).subroutine?_isSome wellFormed
  have distinct := CallGraph.order_nodup built
  have initial : Emit.Compiles program.types memory library false [] fun _ => none := .start
  have agree := initial.foldlM_optimized wellFormed known (by simpa using distinct)
    (by simpa using returns)
  have absent : Emit.optimizeBodies program.types (fun _ => none) = fun _ => none := rfl
  rw [absent, Program.withBodies_none wellFormed] at agree
  unfold Emit.compileAll
  revert agree
  generalize graph.order.foldlM (Emit.compileInto memory library false) program.types = plain,
    graph.order.foldlM (Emit.compileInto memory library true) program.types = optimized
  rintro (fault | @⟨_, _, bodies, rfl, rfl⟩)
  · simp
  · refine ⟨by simp, by simp, ?_⟩
    rintro _ _ ⟨⟩ ⟨⟩ id subroutine found walked
    rw [Program.subroutine?_withBodies, Option.map_eq_some_iff] at found
    obtain ⟨source, foundSource, rfl⟩ := found
    obtain rfl := wellFormed.subroutineId id source foundSource
    have walks : source.walksBody = true := walked
    rw [Program.subroutine?_withBodies, foundSource, Option.map_some, Subroutine.withBody,
      Emit.optimizeBodies, foundSource, Option.any_some, walks]
    rfl

/-- The game inlines a subroutine with something to drop. -/
theorem optimized_bodies_arcade :
    ∃ program graph memory plain optimized subroutine body,
      Program.ofModule arcade = .ok program ∧ CallGraph.build program.types = .ok graph ∧
      Memory.Map.allocate program.types graph {} = .ok memory ∧
      Emit.compileAll program.types graph memory shelf false = .ok plain ∧
      Emit.compileAll program.types graph memory shelf true = .ok optimized ∧
      plain.subroutine? program.entry = some subroutine ∧ subroutine.body? = some body ∧
      Peephole.optimize body.code ≠ body.code ∧
      optimized.subroutine? program.entry = some
        { subroutine with
          body? := some { code := Peephole.optimize body.code, data := body.data } } := by
  have passed : (Program.ofModule arcade).toOption.any (fun program =>
      (CallGraph.build program.types).toOption.any fun graph =>
      (Memory.Map.allocate program.types graph {}).toOption.any fun memory =>
      (Emit.compileAll program.types graph memory shelf false).toOption.any fun plain =>
      (graph.order.all fun id => (program.types.subroutine? id).all fun subroutine =>
        subroutine.intrinsic? != some .alwaysInline || subroutine.endsWithReturn) &&
      (plain.subroutine? program.entry).any fun subroutine => subroutine.walksBody &&
        subroutine.body?.any fun body => Peephole.optimize body.code != body.code) = true := by
    decide +kernel
  obtain ⟨program, resolved, more⟩ := exists_of_any passed
  obtain ⟨graph, built, more⟩ := exists_of_any more
  obtain ⟨memory, allocated, more⟩ := exists_of_any more
  obtain ⟨plain, made, more⟩ := exists_of_any more
  obtain ⟨returning, more⟩ := Bool.and_eq_true_iff.mp more
  obtain ⟨subroutine, found, more⟩ := (Option.any_eq_true _ _).mp more
  obtain ⟨walked, more⟩ := Bool.and_eq_true_iff.mp more
  obtain ⟨body, present, differs⟩ := (Option.any_eq_true _ _).mp more
  have returns : ∀ id ∈ graph.order, ∀ subroutine,
      program.types.subroutine? id = some subroutine →
      subroutine.intrinsic? = some .alwaysInline → subroutine.endsWithReturn = true := by
    intro id member subroutine found inline
    have either := List.all_eq_true.mp returning id member
    simpa [found, inline] using either
  obtain ⟨-, succeeds, bodies⟩ := optimized_bodies resolved built returns memory shelf
  obtain ⟨optimized, tuned⟩ := succeeds.mpr ⟨plain, made⟩
  have result := bodies plain optimized made tuned program.entry subroutine found walked
  rw [present] at result
  exact ⟨program, graph, memory, plain, optimized, subroutine, body, resolved, built, allocated,
    made, tuned, found, present, bne_iff_ne.mp differs, result⟩

end Cartridge
