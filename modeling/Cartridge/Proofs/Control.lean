import Cartridge.Proofs.ZeroFlag

/-!
Where the code of a body may go.

Control goes from a line to the next, to a label of the same body, into another subroutine and back,
or out by a return. Fragments branch inside of themselves or to instructions of their body. This is
kept by rows of pieces, by copies and by the peephole rules.
-/

namespace Cartridge.Asm

/-- Always goes on to the next line. -/
def Mnemonic.goesOn : Mnemonic → Bool
  | .jsr => false
  | .rts => false
  | mnemonic => !mnemonic.isJump

namespace Line

def goesOn (line : Line) : Bool :=
  line.mnemonic?.all Mnemonic.goesOn

@[simp] theorem goesOn_op (mnemonic : Mnemonic) : (op mnemonic).goesOn = mnemonic.goesOn := rfl

@[simp] theorem goesOn_on (mnemonic : Mnemonic) (mode : Mode) (value : Value) :
    (on mnemonic mode value).goesOn = mnemonic.goesOn := rfl

@[simp] theorem goesOn_direct (mnemonic : Mnemonic) (symbol : Symbol) :
    (direct mnemonic symbol).goesOn = mnemonic.goesOn := rfl

@[simp] theorem goesOn_immediate (mnemonic : Mnemonic) (byte : UInt8) :
    (immediate mnemonic byte).goesOn = mnemonic.goesOn := rfl

@[simp] theorem goesOn_label (symbol : Symbol) : (label symbol).goesOn = true := rfl

/-- A line whose jumps and calls go to symbols of the right kind, and whose return is plain. -/
structure Controls (lands called : Symbol → Prop) (line : Line) : Prop where
  jumps : ∀ mnemonic, line.mnemonic? = some mnemonic → mnemonic.isJump = true →
    ∃ symbol, line = .direct mnemonic symbol ∧ lands symbol
  calls : line.mnemonic? = some .jsr → ∃ symbol, line = .direct .jsr symbol ∧ called symbol
  returns : line.mnemonic? = some .rts → line = .op .rts

variable {lands called wider more : Symbol → Prop} {line : Line}

theorem Controls.of_onward (onward : ∀ mnemonic, line.mnemonic? = some mnemonic →
    mnemonic.isJump = false ∧ mnemonic ≠ .jsr ∧ mnemonic ≠ .rts) : line.Controls lands called := by
  refine ⟨?_, ?_, ?_⟩
  · intro mnemonic found jumps
    rw [(onward mnemonic found).1] at jumps
    contradiction
  · intro found
    exact absurd rfl (onward .jsr found).2.1
  · intro found
    exact absurd rfl (onward .rts found).2.2

theorem Controls.of_goesOn (goesOn : line.goesOn = true) : line.Controls lands called := by
  rw [Line.goesOn, Option.all_eq_true] at goesOn
  apply Controls.of_onward
  intro mnemonic found
  have plain := goesOn mnemonic found
  cases mnemonic <;> simp_all [Mnemonic.goesOn, Mnemonic.isJump]

theorem controls_jump {mnemonic : Mnemonic} {symbol : Symbol} (jumps : mnemonic.isJump = true)
    (inside : lands symbol) : (direct mnemonic symbol).Controls lands called := by
  refine ⟨?_, ?_, ?_⟩
  · rintro _ ⟨⟩ _
    exact ⟨symbol, rfl, inside⟩
  · intro found
    obtain rfl : mnemonic = .jsr := Option.some.inj found
    contradiction
  · intro found
    obtain rfl : mnemonic = .rts := Option.some.inj found
    contradiction

theorem controls_call {symbol : Symbol} (known : called symbol) :
    (direct .jsr symbol).Controls lands called := by
  refine ⟨?_, fun _ => ⟨symbol, rfl, known⟩, ?_⟩
  · rintro _ ⟨⟩ jumps
    contradiction
  · intro found
    simp [Line.mnemonic?, direct, on] at found

theorem controls_return : (op .rts).Controls lands called := by
  refine ⟨?_, ?_, fun _ => rfl⟩
  · rintro _ ⟨⟩ jumps
    contradiction
  · intro found
    contradiction

theorem Controls.mono (controls : line.Controls lands called)
    (includes : ∀ symbol, lands symbol → wider symbol)
    (calls : ∀ symbol, called symbol → more symbol) : line.Controls wider more := by
  refine ⟨?_, ?_, controls.returns⟩
  · intro mnemonic found jumps
    obtain ⟨symbol, same, inside⟩ := controls.jumps mnemonic found jumps
    exact ⟨symbol, same, includes symbol inside⟩
  · intro found
    obtain ⟨symbol, same, known⟩ := controls.calls found
    exact ⟨symbol, same, calls symbol known⟩

end Line

end Cartridge.Asm

namespace Cartridge.Emit

open Asm
open Program (Bodies Body Calls CallGraph Subroutine TypeTable)

/-- Code that jumps to its own labels or to targets outside, beside tables without any code. -/
structure Controlled (target called : Symbol → Prop) (body : Body) : Prop where
  code : ∀ line ∈ body.code,
    line.Controls (fun symbol => symbol ∈ definedLabels body.code ∨ target symbol) called
  data : ∀ line ∈ body.data, line.mnemonic? = none

section Controlled

variable {target called more : Symbol → Prop} {body : Body} {code rest data tables : List Line}

theorem controlled_of_goesOn (goesOn : code.all Line.goesOn = true) :
    Controlled target called { code } := by
  rw [List.all_eq_true] at goesOn
  exact ⟨fun line member => .of_goesOn (goesOn line member), by simp⟩

theorem controlled_line {line : Line} (controls : line.Controls target called) :
    Controlled target called { code := [line] } := by
  refine ⟨?_, by simp⟩
  intro other member
  obtain rfl := List.mem_singleton.mp member
  exact controls.mono (fun _ => .inr) fun _ known => known

theorem Controlled.mono {wider : Symbol → Prop} (controlled : Controlled target called body)
    (includes : ∀ symbol, target symbol → wider symbol) : Controlled wider called body := by
  refine ⟨?_, controlled.data⟩
  intro line member
  refine (controlled.code line member).mono (fun symbol inside => ?_) fun _ known => known
  exact inside.imp_right (includes symbol)

theorem Controlled.append (controlled : Controlled target called { code, data })
    (next : Controlled target called { code := rest, data := tables }) :
    Controlled target called { code := code ++ rest, data := data ++ tables } := by
  refine ⟨?_, ?_⟩
  · intro line member
    rw [Site.definedLabels_append]
    rcases List.mem_append.mp member with here | there
    · refine (controlled.code line here).mono (fun symbol inside => ?_) fun _ known => known
      exact inside.imp_left (List.mem_append_left _)
    · refine (next.code line there).mono (fun symbol inside => ?_) fun _ known => known
      exact inside.imp_left (List.mem_append_right _)
  · intro line member
    exact (List.mem_append.mp member).elim (controlled.data line) (next.data line)

theorem Controlled.after (controlled : Controlled target called { code })
    (next : Controlled target called { code := rest, data }) :
    Controlled target called { code := code ++ rest, data } :=
  controlled.append next

/-- A copy jumps to the labels of the copy, and where it returned to the label behind it. -/
theorem Controlled.copy (controlled : Controlled (fun _ => False) called body) (place : Symbol)
    (renamed : ∀ symbol, called symbol → more (renameAt place (bodyLabels body) symbol)) :
    Controlled target more (splice place body) := by
  refine ⟨?_, ?_⟩
  · intro line member
    rw [definedLabels_code_splice]
    rcases List.mem_append.mp member with copied | behind
    · obtain ⟨original, kept, rfl⟩ := List.mem_map.mp copied
      have before := controlled.code original ((dropLastReturn_sublist body.code).subset kept)
      cases returns : isReturn original with
      | true =>
        have any : (dropLastReturn body.code).any isReturn = true :=
          List.any_eq_true.mpr ⟨original, kept, returns⟩
        rw [spliceLine, if_pos returns, behindCopy, if_pos any]
        exact Line.controls_jump rfl (.inl (by simp))
      | false =>
        rw [spliceLine, if_neg (by simp [returns])]
        refine ⟨?_, ?_, ?_⟩
        · intro mnemonic found jumps
          rw [mnemonic?_relabel] at found
          obtain ⟨symbol, rfl, inside⟩ := before.jumps mnemonic found jumps
          refine ⟨renameAt place (bodyLabels body) symbol, rfl, .inl (List.mem_append_left _ ?_)⟩
          exact List.mem_map_of_mem (inside.resolve_right id)
        · intro found
          rw [mnemonic?_relabel] at found
          obtain ⟨symbol, rfl, known⟩ := before.calls found
          exact ⟨renameAt place (bodyLabels body) symbol, rfl, renamed symbol known⟩
        · intro found
          rw [mnemonic?_relabel] at found
          simp [isReturn, found] at returns
    · split at behind
      next =>
        obtain rfl := List.mem_singleton.mp behind
        exact .of_goesOn rfl
      next => contradiction
  · intro line member
    obtain ⟨original, inData, rfl⟩ := List.mem_map.mp member
    rw [mnemonic?_relabel]
    exact controlled.data original inData

theorem Controlled.optimizeBody (controlled : Controlled target called body) (optimize : Bool) :
    Controlled target called (optimizeBody optimize body) := by
  cases optimize with
  | false => exact controlled
  | true =>
    refine ⟨?_, controlled.data⟩
    intro line member
    have before := controlled.code line ((Peephole.optimize_sublist body.code).subset member)
    rwa [← Peephole.definedLabels_optimize] at before

end Controlled

namespace Site

variable {site : Site} {target called : Symbol → Prop} {labels index : Nat} {fragment : Fragment}

theorem controlled_evaluated (evaluated : Evaluated site labels fragment) :
    Controlled target called { code := fragment.code, data := fragment.data } := by
  cases evaluated with
  | convert => exact controlled_of_goesOn rfl
  | data =>
    have code := @controlled_of_goesOn target called
      [.on .lda .immediate (.lowByte (site.numberedLabel "Data" (labels + 1))), .op .pha,
        .on .lda .immediate (.highByte (site.numberedLabel "Data" (labels + 1))), .op .pha] rfl
    refine ⟨code.code, ?_⟩
    simp [Line.mnemonic?]

/-- What a call may lead to, and what may be copied in its place. -/
structure Leads (site : Site) (called : Symbol → Prop) (callee : Subroutine) : Prop where
  jumped : callee.replacesCall = false → callee.intrinsic? ≠ some .alwaysInline →
    called callee.label
  inlined : ∀ body, callee.intrinsic? = some .alwaysInline → callee.body? = some body → ∀ place,
    Controlled (fun _ => False) called (splice place body)

theorem controlled_called {callee : Subroutine} (leads : site.Leads called callee)
    (made : Called site labels callee fragment) :
    Controlled target called { code := fragment.code, data := fragment.data } := by
  have result : Controlled target called { code := resultLines callee } := by
    apply controlled_of_goesOn
    unfold resultLines
    split <;> rfl
  have passed : ∀ {passing}, site.Passes passing →
      Controlled target called { code := passing } := by
    rintro _ ⟨moves, -, rfl⟩
    apply controlled_of_goesOn
    simp [storeLines, Mnemonic.goesOn, Mnemonic.isJump]
  cases made with
  | @store symbol strobe _ marked => cases strobe <;> exact controlled_of_goesOn rfl
  | @register register _ marked => cases register <;> exact controlled_of_goesOn rfl
  | load marked => exact controlled_of_goesOn rfl
  | evaluated evaluated => exact controlled_evaluated evaluated
  | @inlined body passing _ marked present passes =>
    have copied : Controlled target called
        (splice (site.numberedLabel "Inline" (labels + 1)) body) :=
      (leads.inlined body marked present _).mono fun _ nowhere => nowhere.elim
    have whole := ((passed passes).after copied).append result
    rwa [List.append_nil] at whole
  | @jumped passing _ kept apart passes =>
    have jumps : Controlled target called { code := [.direct .jsr callee.label] } :=
      controlled_line (Line.controls_call (leads.jumped kept apart))
    exact ((passed passes).after jumps).after result

theorem controlled_outcomeLines {stem : String} {branches : List (Mnemonic × Bool)}
    (jumps : ∀ branch ∈ branches, branch.1.isJump = true) :
    Controlled target called { code := site.outcomeLines stem branches labels } := by
  refine ⟨?_, by simp⟩
  intro line member
  rw [definedLabels_outcomeLines]
  simp only [outcomeLines, List.mem_append, List.mem_map] at member
  rcases member with ⟨branch, inside, rfl⟩ | fixed
  · refine Line.controls_jump (jumps branch inside) (.inl ?_)
    split <;> simp
  · simp only [List.mem_cons, List.not_mem_nil, or_false] at fixed
    rcases fixed with rfl | rfl | rfl | fixed
    · exact .of_goesOn rfl
    · exact .of_goesOn rfl
    · exact Line.controls_jump rfl (.inl (by simp))
    · apply Line.Controls.of_goesOn
      rcases fixed with rfl | rfl | rfl | rfl <;> rfl

theorem controlled_lowered {instruction : Code.Instruction} {stack : Code.EvalStack}
    (leads : ∀ id callee, instruction.callee? = some id →
      site.types.subroutine? id = some callee → site.Leads called callee)
    (targets : ∀ index, instruction.branchTarget? = some index →
      target (site.instructionLabel index))
    (lowered : Lowered site index labels instruction stack fragment) :
    Controlled target called { code := fragment.code, data := fragment.data } := by
  cases lowered with
  | @fieldAddress _ type offset _ _ _ _ _ =>
    apply controlled_of_goesOn
    by_cases still : offset = 0 <;> simp [still, Mnemonic.goesOn, Mnemonic.isJump]
  | storeField _ _ _ lines =>
    rcases storeFieldLines_eq_ok lines with ⟨-, rfl⟩ | ⟨-, rfl⟩ | ⟨-, -, rfl⟩
    · exact controlled_of_goesOn rfl
    · exact controlled_of_goesOn rfl
    · exact controlled_of_goesOn (by simp [Mnemonic.goesOn, Mnemonic.isJump])
  | arithmetic kind =>
    apply controlled_of_goesOn
    simp only [List.mem_cons, List.not_mem_nil, or_false, Prod.mk.injEq] at kind
    rcases kind with ⟨-, rfl, rfl⟩ | ⟨-, rfl, rfl⟩ <;> rfl
  | @compare _ _ stem branches _ _ _ kind =>
    refine Controlled.after (controlled_of_goesOn rfl) (controlled_outcomeLines ?_)
    simp only [List.mem_cons, List.not_mem_nil, or_false, Prod.mk.injEq] at kind
    rcases kind with ⟨-, -, rfl⟩ | ⟨-, -, rfl⟩ | ⟨-, -, rfl⟩ <;> decide
  | @branch index stack =>
    exact controlled_line (Line.controls_jump rfl (targets index rfl))
  | @branchOn opcode mnemonic index _ _ kind =>
    have pulls : Controlled target called { code := [.op .pla] } := controlled_of_goesOn rfl
    refine pulls.after ?_
    simp only [List.mem_cons, List.not_mem_nil, or_false, Prod.mk.injEq] at kind
    rcases kind with ⟨rfl, rfl⟩ | ⟨rfl, rfl⟩
    · exact controlled_line (Line.controls_jump rfl (targets index rfl))
    · exact controlled_line (Line.controls_jump rfl (targets index rfl))
  | call found made => exact controlled_called (leads _ _ rfl found) (called_of_call made)
  | ret => exact controlled_line Line.controls_return
  | retByte =>
    have pulls : Controlled target called { code := [.op .pla] } := controlled_of_goesOn rfl
    exact pulls.after (controlled_line Line.controls_return)
  | _ =>
    apply controlled_of_goesOn
    simp [loadLines, storeLines, Mnemonic.goesOn, Mnemonic.isJump]

theorem controlled_row
    (leads : ∀ instruction ∈ site.subroutine.instructions, ∀ id callee,
      instruction.callee? = some id → site.types.subroutine? id = some callee →
      site.Leads called callee)
    {pieces : List (Action × Fragment)} {last : Nat} (row : site.Row labels pieces last) :
    Controlled
      (fun symbol => ∃ index ∈ Code.targets site.subroutine.instructions,
        symbol = site.instructionLabel index)
      called
      { code := pieces.flatMap site.pieceCode
        data := pieces.flatMap fun piece => piece.2.data } := by
  induction row with
  | nil => exact controlled_of_goesOn rfl
  | @cons labels action fragment pieces last performed rest ih =>
    rw [List.flatMap_cons, List.flatMap_cons]
    refine Controlled.append (Controlled.after (controlled_of_goesOn ?_) ?_) ih
    · simp [actionLabels]
    · cases performed with
      | @compiled index instruction _ _ found lowered =>
        have member := List.mem_of_getElem? found
        refine controlled_lowered (leads instruction member) (fun index branches => ?_) lowered
        exact ⟨index, mem_targets member branches, rfl⟩
      | executed evaluated => exact controlled_evaluated evaluated

/-- In a whole body every jump goes to a label of its code. -/
theorem controlled_of_compile {body : Body} (compiled : site.compile = .ok body)
    (leads : ∀ instruction ∈ site.subroutine.instructions, ∀ id callee,
      instruction.callee? = some id → site.types.subroutine? id = some callee →
      site.Leads called callee)
    (inside : ∀ index ∈ Code.targets site.subroutine.instructions,
      index < site.subroutine.instructions.length) :
    Controlled (fun _ => False) called body := by
  obtain ⟨pieces, last, row, -, code, data⟩ := row_of_compile compiled
  have controlled := controlled_row leads row
  rw [← code, ← data] at controlled
  refine ⟨?_, controlled.data⟩
  intro line member
  refine (controlled.code line member).mono (fun symbol lands => ?_) fun _ known => known
  rcases lands with own | ⟨index, isTarget, rfl⟩
  · exact .inl own
  · exact .inl (instructionLabel_defined compiled isTarget (inside index isTarget))

end Site

section Bodies

variable {types : TypeTable} {memory : Memory.Map} {library : Library} {optimize : Bool}
  {done : List SubroutineId} {bodies : Bodies} {subroutine : Subroutine}

/-- The calls in a body that is not taken over are those of its instructions, and those that came
with copies of other bodies. -/
theorem controlled_of_compiles (wellFormed : types.WellFormed)
    (ran : Compiles types memory library optimize done bodies)
    {called : SubroutineId → Symbol → Prop}
    (jumped : ∀ caller id callee, Calls types caller id → types.subroutine? id = some callee →
      callee.replacesCall = false → callee.intrinsic? ≠ some .alwaysInline →
      called caller callee.label)
    (copied : ∀ caller id callee body, Calls types caller id →
      types.subroutine? id = some callee → callee.intrinsic? = some .alwaysInline →
      bodies id = some body → ∀ place symbol, called id symbol →
      called caller (renameAt place (bodyLabels body) symbol))
    {id : SubroutineId} {body : Body} (found : types.subroutine? id = some subroutine)
    (present : bodies id = some body)
    (own : ∀ implementation, subroutine.intrinsic? ≠ some (.useProvided implementation)) :
    Controlled (fun _ => False) (called subroutine.id) body := by
  refine ran.forall_body_within (motive := fun subroutine body =>
    (∀ implementation, subroutine.intrinsic? ≠ some (.useProvided implementation)) →
      Controlled (fun _ => False) (called subroutine.id) body)
    wellFormed (fun _ _ present => present) ?_ found present own
  intro subroutine body earlier found member kept within before made own
  rcases subroutineBody_eq_ok kept made with
    ⟨implementation, marked, -⟩ | ⟨-, rfl⟩ | ⟨walked, compiled, done, rfl⟩
  · exact absurd marked (own implementation)
  · exact controlled_line Line.controls_return
  · apply Controlled.optimizeBody
    apply Site.controlled_of_compile done
    · intro instruction inBody id callee calls present
      have call : Calls types subroutine.id id :=
        ⟨subroutine, found, CallGraph.walksBody_eq_true.mp walked, instruction, inBody,
          CallGraph.callee?_eq_some.mp calls⟩
      rw [Program.subroutine?_withBodies, Option.map_eq_some_iff] at present
      obtain ⟨original, foundOriginal, rfl⟩ := present
      constructor
      · intro kept apart
        exact jumped subroutine.id id original call foundOriginal kept apart
      · intro body inline bodied place
        rw [Subroutine.intrinsic?_withBody] at inline
        have named := wellFormed.subroutineId id original foundOriginal
        rw [Subroutine.body?_withBody, named] at bodied
        have inner := before id original body foundOriginal bodied (by simp [inline])
        rw [named] at inner
        exact inner.copy place (copied _ id original body call foundOriginal inline
          (within id body bodied) place)
    · intro index isTarget
      obtain ⟨instruction, inBody, branches⟩ := List.mem_filterMap.mp isTarget
      have refers := (wellFormed.sound _ _ found instruction inBody).refers
      rwa [Site.operand_of_branchTarget? branches] at refers

/-- In every body that is not taken over, control stays inside but for calls. -/
theorem controlled_inside (wellFormed : types.WellFormed)
    (ran : Compiles types memory library optimize done bodies) {id : SubroutineId} {body : Body}
    (found : types.subroutine? id = some subroutine) (present : bodies id = some body)
    (own : ∀ implementation, subroutine.intrinsic? ≠ some (.useProvided implementation)) :
    Controlled (fun _ => False) (fun _ => True) body := by
  let called (_ : SubroutineId) (_ : Symbol) : Prop := True
  have controlled : Controlled (fun _ => False) (called subroutine.id) body := by
    refine controlled_of_compiles wellFormed ran ?_ ?_ found present own
    · exact fun _ _ _ _ _ _ _ => trivial
    · exact fun _ _ _ _ _ _ _ _ _ _ _ => trivial
  exact controlled

end Bodies

end Cartridge.Emit

namespace Cartridge.Program.CallGraph

/-- Whatever a subroutine leads to comes before it. -/
theorem mem_before {types : TypeTable} {graph : CallGraph} (built : build types = .ok graph)
    {front rest : List SubroutineId} {id other : SubroutineId}
    (split : graph.order = front ++ id :: rest) (leads : Relation.TransGen (Calls types) id other) :
    other ∈ front := by
  induction leads with
  | single calls => exact callee_before built split calls
  | tail _ calls ih =>
    obtain ⟨before, between, rfl⟩ := List.append_of_mem ih
    rw [List.append_assoc, List.cons_append] at split
    exact List.mem_append_left _ (callee_before built split calls)

end Cartridge.Program.CallGraph

namespace Cartridge

open Emit (bodyLabels)
open Program (Body Calls CallGraph Subroutine)

/-- Calls in compiled code go to subroutines that come before in the order of the call graph, even
those that came with copies of other bodies. So no subroutine is ever called again before it
returns. -/
theorem calls_before {module : Source.Module} {library : Asm.Library} {options : Options}
    {image : Listing.Image} (compiled : compile module library options = .ok image)
    (apart : ∀ subroutine ∈ image.program.types.subroutines,
      ∀ host ∈ image.program.types.subroutines,
      (∀ implementation, host.intrinsic? ≠ some (.useProvided implementation)) →
      ∀ body, host.body? = some body → subroutine.label ∉ bodyLabels body)
    {id : SubroutineId} {subroutine : Subroutine} {body : Body}
    (found : image.program.types.subroutine? id = some subroutine)
    (own : ∀ implementation, subroutine.intrinsic? ≠ some (.useProvided implementation))
    (present : subroutine.body? = some body) {line : Asm.Line}
    (member : line ∈ body.code ++ body.data) (jumps : line.mnemonic? = some .jsr) :
    ∃ front back other callee, image.graph.order = front ++ id :: back ∧ other ∈ front ∧
      image.program.types.subroutine? other = some callee ∧ line = .direct .jsr callee.label ∧
      callee.intrinsic? ≠ some .alwaysInline ∧ callee.replacesCall = false ∧
      callee.body?.isSome = true := by
  obtain ⟨program, bodies, -, -, made⟩ := compile_eq_ok compiled
  let called (caller : SubroutineId) (symbol : Asm.Symbol) : Prop :=
    ∃ other callee, program.types.subroutine? other = some callee ∧
      Relation.TransGen (Calls program.types) caller other ∧ symbol = callee.label ∧
      callee.replacesCall = false ∧ callee.intrinsic? ≠ some .alwaysInline
  rw [made.subroutine?, Option.map_eq_some_iff] at found
  obtain ⟨source, foundSource, rfl⟩ := found
  have named := made.wellFormed.subroutineId id source foundSource
  rw [Subroutine.body?_withBody, named] at present
  have controlled : Emit.Controlled (fun _ => False) (called source.id) body := by
    refine Emit.controlled_of_compiles made.wellFormed made.ran ?_ ?_ foundSource present own
    · intro caller other callee calls foundCallee kept outside
      exact ⟨other, callee, foundCallee, .single calls, rfl, kept, outside⟩
    · rintro caller middle host inner calls foundHost inline bodied place _
        ⟨other, callee, foundCallee, leads, rfl, kept, outside⟩
      have listed : ∀ {id source}, program.types.subroutine? id = some source →
          source.withBody bodies ∈ image.program.types.subroutines := by
        intro id source found
        rw [Program.mem_subroutines]
        exact ⟨id, by rw [made.subroutine?, found, Option.map_some]⟩
      have foreign : callee.label ∉ bodyLabels inner := by
        refine apart _ (listed foundCallee) _ (listed foundHost) ?_ inner ?_
        · simp [inline]
        · rw [Subroutine.body?_withBody, made.wellFormed.subroutineId middle host foundHost, bodied]
      refine ⟨other, callee, foundCallee, .head calls leads, ?_, kept, outside⟩
      rw [Emit.renameAt, if_neg (by simpa using foreign)]
  have inCode : line ∈ body.code := by
    refine (List.mem_append.mp member).resolve_right fun inData => ?_
    simp [controlled.data line inData] at jumps
  obtain ⟨_, rfl, other, callee, foundCallee, leads, rfl, kept, outside⟩ :=
    (controlled.code line inCode).calls jumps
  have contained : id ∈ image.graph.order := by
    by_contra absent
    rw [made.ran.eq_none absent] at present
    contradiction
  obtain ⟨front, back, split⟩ := List.append_of_mem contained
  rw [named] at leads
  have before := CallGraph.mem_before made.graph split leads
  have bodied : (bodies other).isSome = true := by
    refine made.ran.isSome ?_ foundCallee kept
    rw [split]
    exact List.mem_append_left _ before
  refine ⟨front, back, other, callee.withBody bodies, split, before, ?_, rfl, outside, kept, ?_⟩
  · rw [made.subroutine?, foundCallee, Option.map_some]
  · rw [Subroutine.body?_withBody, made.wellFormed.subroutineId other callee foundCallee, bodied]

/-- A game whose only call came with the copy of an inlined subroutine. -/
def relay : Source.Module :=
  { types := [{ name := "Game", subroutines :=
      [{ name := "Main", isEntry := true
         instructions := [⟨"call", some (.method ⟨"Game", "Step"⟩)⟩, ⟨"ret", none⟩] },
       { name := "Step", intrinsic? := some .alwaysInline
         instructions := [⟨"call", some (.method ⟨"Game", "Tick"⟩)⟩, ⟨"ret", none⟩] },
       { name := "Tick", instructions := [⟨"ret", none⟩] }] }] }

theorem calls_before_relay :
    ∃ image main body, compile relay {} {} = .ok image ∧
      image.program.types.subroutine? image.program.entry = some main ∧
      main.body? = some body ∧ .direct .jsr "Game_Tick" ∈ body.code ∧
      ∃ front back other callee, image.graph.order = front ++ image.program.entry :: back ∧
        other ∈ front ∧ image.program.types.subroutine? other = some callee ∧
        .direct .jsr "Game_Tick" = Asm.Line.direct .jsr callee.label ∧
        callee.intrinsic? ≠ some .alwaysInline ∧ callee.replacesCall = false ∧
        callee.body?.isSome = true := by
  have passed : (compile relay {} {}).toOption.any (fun image =>
      (image.program.types.subroutines.all fun subroutine =>
        image.program.types.subroutines.all fun host =>
        host.body?.all fun body => !(bodyLabels body).contains subroutine.label) &&
      (image.program.types.subroutine? image.program.entry).any fun main =>
        main.intrinsic? == none && main.body?.any fun body =>
          body.code.contains (.direct .jsr "Game_Tick")) = true := by
    decide +kernel
  obtain ⟨image, compiled, facts⟩ := exists_of_any passed
  obtain ⟨distinct, more⟩ := Bool.and_eq_true_iff.mp facts
  obtain ⟨main, found, more⟩ := (Option.any_eq_true _ _).mp more
  obtain ⟨plain, more⟩ := Bool.and_eq_true_iff.mp more
  obtain ⟨body, present, contains⟩ := (Option.any_eq_true _ _).mp more
  have member : .direct .jsr "Game_Tick" ∈ body.code := List.contains_iff_mem.mp contains
  refine ⟨image, main, body, compiled, found, present, member, ?_⟩
  refine calls_before compiled ?_ found ?_ present (List.mem_append_left _ member) rfl
  · intro subroutine listed host hostListed _ inner bodied
    have hosts := List.all_eq_true.mp distinct subroutine listed
    have clear := List.all_eq_true.mp hosts host hostListed
    simpa [bodied] using clear
  · simp [beq_iff_eq.mp plain]

end Cartridge
