import Cartridge.Proofs.Parts
import Cartridge.Proofs.Supply

/-!
Every symbol that the code of a listing refers to is defined there.

Lines are linked when each reference goes to a label among them or to a name that is known outside.
Fragments are linked by what their site knows, and being linked is kept by rows of pieces, by copies
and by the peephole rules. In a whole body the labels of branch targets are no longer outside, since
the plan takes in every instruction, and what remains is laid out elsewhere in the listing.
-/

namespace Cartridge.Asm

@[simp] theorem reference?_op (mnemonic : Mnemonic) : (Line.op mnemonic).reference? = none := rfl

@[simp] theorem reference?_on (mnemonic : Mnemonic) (mode : Mode) (value : Value) :
    (Line.on mnemonic mode value).reference? = value.symbol? := rfl

@[simp] theorem reference?_direct (mnemonic : Mnemonic) (symbol : Symbol) :
    (Line.direct mnemonic symbol).reference? = some symbol := rfl

@[simp] theorem reference?_immediate (mnemonic : Mnemonic) (byte : UInt8) :
    (Line.immediate mnemonic byte).reference? = none := rfl

@[simp] theorem reference?_label (symbol : Symbol) : (Line.label symbol).reference? = none := rfl

theorem references_flatMap_eq_nil {α : Type} {f : α → List Line}
    (silent : ∀ item, references (f item) = []) (items : List α) :
    references (items.flatMap f) = [] := by
  induction items with
  | nil => rfl
  | cons item items ih => rw [List.flatMap_cons, references_append, silent, ih, List.append_nil]

@[simp] theorem Value.symbol?_byteOf (symbol : Symbol) (k size : Nat) :
    (Value.byteOf symbol k size).symbol? = some symbol := by
  unfold Value.byteOf
  split <;> rfl

end Cartridge.Asm

namespace Cartridge.Emit

open Asm
open Memory (Allocation)
open Program (Bodies Body CallGraph Calls Reachable Subroutine TypeTable)

structure Linked (outside : Symbol → Prop) (body : Body) : Prop where
  plain : ∀ line ∈ body.code ++ body.data, line.isPlain = true
  tables : references body.data = []
  code : ∀ symbol ∈ references body.code, symbol ∈ bodyLabels body ∨ outside symbol

section Linked

variable {outside : Symbol → Prop} {body : Body} {code more data rest : List Line}

theorem linked_nil : Linked outside { code := [] } :=
  ⟨by simp, rfl, by simp [references]⟩

theorem linked_of_instructions (plain : code.all Line.isInstruction = true)
    (known : ∀ symbol ∈ references code, outside symbol) : Linked outside { code } := by
  refine ⟨?_, rfl, fun symbol refers => .inr (known symbol refers)⟩
  intro line member
  rw [List.append_nil] at member
  exact Line.isPlain_of_isInstruction (List.all_eq_true.mp plain line member)

theorem linked_of_silent (plain : code.all Line.isInstruction = true)
    (silent : references code = []) : Linked outside { code } := by
  apply linked_of_instructions plain
  intro symbol refers
  rw [silent] at refers
  contradiction

theorem Linked.mono {wider : Symbol → Prop} (linked : Linked outside body)
    (includes : ∀ symbol, outside symbol → wider symbol) : Linked wider body :=
  ⟨linked.plain, linked.tables, fun symbol refers =>
    (linked.code symbol refers).imp_right (includes symbol)⟩

theorem Linked.append (linked : Linked outside { code, data })
    (next : Linked outside { code := more, data := rest }) :
    Linked outside { code := code ++ more, data := data ++ rest } := by
  refine ⟨?_, ?_, ?_⟩
  · intro line member
    simp only [List.mem_append] at member
    rcases member with (inCode | inMore) | inData | inRest
    · exact linked.plain line (List.mem_append_left _ inCode)
    · exact next.plain line (List.mem_append_left _ inMore)
    · exact linked.plain line (List.mem_append_right _ inData)
    · exact next.plain line (List.mem_append_right _ inRest)
  · rw [references_append, linked.tables, next.tables, List.append_nil]
  · intro symbol refers
    simp only [bodyLabels, Site.definedLabels_append, List.mem_append]
    rw [references_append, List.mem_append] at refers
    rcases refers with here | there
    · refine (linked.code symbol here).imp_left fun own => ?_
      exact (List.mem_append.mp own).imp .inl .inl
    · refine (next.code symbol there).imp_left fun own => ?_
      exact (List.mem_append.mp own).imp .inr .inr

theorem Linked.after (linked : Linked outside { code })
    (next : Linked outside { code := more, data }) :
    Linked outside { code := code ++ more, data } :=
  linked.append next

theorem Linked.copy (linked : Linked outside body) (place : Symbol) :
    Linked outside (splice place body) := by
  refine ⟨isPlain_splice linked.plain, ?_, ?_⟩
  · rw [references, List.filterMap_eq_nil_iff]
    intro line member
    obtain ⟨original, inData, rfl⟩ := List.mem_map.mp member
    have plain := linked.plain original (List.mem_append_right _ inData)
    have silent := List.filterMap_eq_nil_iff.mp linked.tables original inData
    rw [Option.eq_none_iff_forall_ne_some]
    intro symbol refers
    obtain ⟨named, referred, -⟩ := reference?_relabel plain refers
    rw [silent] at referred
    contradiction
  · intro symbol refers
    have plain := fun line member => linked.plain line (List.mem_append_left _ member)
    refine (references_splice plain refers).imp_right ?_
    rintro ⟨before, foreign⟩
    exact (linked.code symbol before).resolve_left foreign

theorem Linked.optimizeBody (linked : Linked outside body) (optimize : Bool) :
    Linked outside (optimizeBody optimize body) := by
  cases optimize with
  | false => exact linked
  | true =>
    have kept := Peephole.optimize_sublist body.code
    refine ⟨?_, linked.tables, ?_⟩
    · intro line member
      refine linked.plain line (List.mem_append.mpr ?_)
      exact (List.mem_append.mp member).imp_left (kept.subset ·)
    · intro symbol refers
      have before := linked.code symbol ((kept.filterMap _).subset refers)
      rwa [bodyLabels, ← Peephole.definedLabels_optimize] at before

end Linked

namespace Site

/-- The names that the code of a site may refer to. -/
structure Knows (site : Site) (outside : Symbol → Prop) : Prop where
  memory : ∀ allocation ∈ site.memory.allocations, outside allocation.symbol
  temporary : outside (Memory.temporary 0)
  targets : ∀ target ∈ Code.targets site.subroutine.instructions,
    outside (site.instructionLabel target)
  stored : ∀ instruction ∈ site.subroutine.instructions, ∀ id callee symbol strobe,
    instruction.callee? = some id → site.types.subroutine? id = some callee →
    callee.intrinsic? = some (.storeToSymbol symbol strobe) → outside symbol
  loaded : ∀ instruction ∈ site.subroutine.instructions, ∀ id callee symbol,
    instruction.callee? = some id → site.types.subroutine? id = some callee →
    callee.intrinsic? = some (.loadFromSymbol symbol) → outside symbol
  called : ∀ instruction ∈ site.subroutine.instructions, ∀ id callee,
    instruction.callee? = some id → site.types.subroutine? id = some callee →
    callee.replacesCall = false → callee.intrinsic? ≠ some .alwaysInline → outside callee.label
  inlined : ∀ instruction ∈ site.subroutine.instructions, ∀ id callee body,
    instruction.callee? = some id → site.types.subroutine? id = some callee →
    callee.intrinsic? = some .alwaysInline → callee.body? = some body → Linked outside body

variable {site : Site} {outside : Symbol → Prop} {index labels : Nat} {fragment : Fragment}

theorem references_loadLines {symbol other : Symbol} {size : Nat}
    (refers : other ∈ references (loadLines symbol size)) : other = symbol := by
  simp only [references, loadLines, List.mem_filterMap, List.mem_flatMap] at refers
  obtain ⟨line, ⟨k, -, inside⟩, reference⟩ := refers
  simp only [List.mem_cons, List.not_mem_nil, or_false] at inside
  rcases inside with rfl | rfl
  · simpa [eq_comm] using reference
  · contradiction

theorem references_storeLines {symbol other : Symbol} {size : Nat}
    (refers : other ∈ references (storeLines symbol size)) : other = symbol := by
  simp only [references, storeLines, List.mem_filterMap, List.mem_flatMap] at refers
  obtain ⟨line, ⟨k, -, inside⟩, reference⟩ := refers
  simp only [List.mem_cons, List.not_mem_nil, or_false] at inside
  rcases inside with rfl | rfl
  · contradiction
  · simpa [eq_comm] using reference

theorem linked_passes (knows : site.Knows outside) {passing : List Line}
    (passes : site.Passes passing) : Linked outside { code := passing } := by
  obtain ⟨moves, allocated, rfl⟩ := passes
  induction moves with
  | nil => exact linked_nil
  | cons move moves ih =>
    rw [List.flatMap_cons]
    refine Linked.after ?_ (ih fun other member => allocated other (List.mem_cons_of_mem _ member))
    refine linked_of_instructions ?_ fun symbol refers => ?_
    · simp [storeLines, Line.isInstruction, Line.op, Line.on]
    · rw [references_storeLines refers]
      exact knows.memory _ (allocated move List.mem_cons_self)

theorem linked_evaluated (evaluated : Evaluated site labels fragment) :
    Linked outside { code := fragment.code, data := fragment.data } := by
  cases evaluated with
  | convert => exact linked_of_silent rfl rfl
  | data =>
    refine ⟨?_, rfl, fun symbol refers => .inl ?_⟩
    · simp [Line.isPlain, Line.on, Line.op]
    · have same : symbol = site.numberedLabel "Data" (labels + 1) := by
        simpa [references, Value.symbol?, eq_comm] using refers
      simp [same, bodyLabels, definedLabels, Line.label?, Line.on, Line.op]

theorem linked_called (knows : site.Knows outside) {instruction : Code.Instruction}
    (member : instruction ∈ site.subroutine.instructions) {id : SubroutineId}
    {callee : Subroutine} (calls : instruction.callee? = some id)
    (found : site.types.subroutine? id = some callee)
    (called : Called site labels callee fragment) :
    Linked outside { code := fragment.code, data := fragment.data } := by
  have result : Linked outside { code := resultLines callee } := by
    unfold resultLines
    split <;> exact linked_of_silent rfl rfl
  cases called with
  | @store symbol strobe _ marked =>
    refine linked_of_instructions ?_ fun other refers => ?_
    · cases strobe <;> rfl
    · have same : other = symbol := by
        cases strobe <;> simpa [references, eq_comm] using refers
      rw [same]
      exact knows.stored instruction member id callee symbol strobe calls found marked
  | @register register _ marked =>
    cases register <;> exact linked_of_silent rfl rfl
  | @load symbol _ marked =>
    refine linked_of_instructions rfl fun other refers => ?_
    have same : other = symbol := by simpa [references, eq_comm] using refers
    rw [same]
    exact knows.loaded instruction member id callee symbol calls found marked
  | evaluated evaluated => exact linked_evaluated evaluated
  | @inlined body passing _ marked present passes =>
    have copied := (knows.inlined instruction member id callee body calls found marked present).copy
      (site.numberedLabel "Inline" (labels + 1))
    have whole := ((linked_passes knows passes).after copied).append result
    rwa [List.append_nil] at whole
  | @jumped passing _ kept apart passes =>
    refine ((linked_passes knows passes).after ?_).after result
    refine linked_of_instructions rfl fun other refers => ?_
    have same : other = callee.label := by simpa [references, eq_comm] using refers
    rw [same]
    exact knows.called instruction member id callee calls found kept apart

theorem mem_targets {instruction : Code.Instruction} {target : Nat}
    (member : instruction ∈ site.subroutine.instructions)
    (branches : instruction.branchTarget? = some target) :
    target ∈ Code.targets site.subroutine.instructions :=
  List.mem_filterMap.mpr ⟨instruction, member, branches⟩

theorem operand_of_branchTarget? {instruction : Code.Instruction} {target : Nat}
    (branches : instruction.branchTarget? = some target) :
    instruction.operand = .target target := by
  unfold Code.Instruction.branchTarget? at branches
  split at branches <;> simp_all

theorem linked_compare (knows : site.Knows outside) {stem : String}
    {branches : List (Mnemonic × Bool)} :
    Linked outside
      { code := pullOperands ++ [.direct .cmp (Memory.temporary 0)] ++
          site.outcomeLines stem branches labels } := by
  have pulling : Linked outside
      { code := pullOperands ++ [.direct .cmp (Memory.temporary 0)] } := by
    refine linked_of_instructions rfl fun symbol refers => ?_
    have same : symbol = Memory.temporary 0 := by
      simpa [references, pullOperands, eq_comm] using refers
    rw [same]
    exact knows.temporary
  refine pulling.after ⟨?_, rfl, fun symbol refers => .inl ?_⟩
  · intro line member
    simp only [outcomeLines, List.append_nil, List.mem_append, List.mem_map] at member
    rcases member with ⟨branch, -, rfl⟩ | fixed
    · rfl
    · simp only [List.mem_cons, List.not_mem_nil, or_false] at fixed
      rcases fixed with rfl | rfl | rfl | rfl | rfl | rfl | rfl <;> rfl
  · rw [bodyLabels, definedLabels_outcomeLines]
    obtain ⟨line, member, reference⟩ := List.mem_filterMap.mp refers
    simp only [outcomeLines, List.mem_append, List.mem_map] at member
    rcases member with ⟨branch, -, rfl⟩ | fixed
    · rw [reference?_direct] at reference
      obtain rfl := Option.some.inj reference
      split <;> simp
    · simp only [List.mem_cons, List.not_mem_nil, or_false] at fixed
      rcases fixed with rfl | rfl | rfl | rfl | rfl | rfl | rfl <;> simp_all

theorem linked_lowered (knows : site.Knows outside) {instruction : Code.Instruction}
    {stack : Code.EvalStack} (member : instruction ∈ site.subroutine.instructions)
    (lowered : Lowered site index labels instruction stack fragment) :
    Linked outside { code := fragment.code, data := fragment.data } := by
  cases lowered with
  | nop => exact linked_nil
  | constant => exact linked_of_silent rfl rfl
  | load _ slot =>
    refine linked_of_instructions ?_ fun symbol refers => ?_
    · simp [loadLines, Line.isInstruction, Line.op, Line.on]
    · rw [references_loadLines refers]
      exact knows.memory _ (mem_of_slot? slot)
  | store _ slot =>
    refine linked_of_instructions ?_ fun symbol refers => ?_
    · simp [storeLines, Line.isInstruction, Line.op, Line.on]
    · rw [references_storeLines refers]
      exact knows.memory _ (mem_of_slot? slot)
  | @staticAddress _ allocation _ _ slot =>
    refine linked_of_instructions rfl fun symbol refers => ?_
    have same : symbol = allocation.symbol := by
      simpa [references, Value.symbol?, eq_comm] using refers
    rw [same]
    exact knows.memory _ (mem_of_slot? slot)
  | loadField =>
    refine linked_of_silent ?_ ?_
    · simp [Line.isInstruction, Line.op, Line.on]
    · rw [references_append, references_flatMap_eq_nil fun _ => rfl]
      rfl
  | fieldAddress => split <;> exact linked_of_silent rfl rfl
  | storeField _ _ _ lines =>
    refine linked_of_silent (storeFieldLines_plain lines) ?_
    rcases storeFieldLines_eq_ok lines with ⟨-, rfl⟩ | ⟨-, rfl⟩ | ⟨-, -, rfl⟩
    · rfl
    · rfl
    · rw [references_append, references_append, references_flatMap_eq_nil fun _ => rfl]
      rfl
  | initObject =>
    refine linked_of_silent ?_ ?_
    · simp [Line.isInstruction, Line.op, Line.on, Line.immediate]
    · simp [references, indexedByte, Value.symbol?]
  | arithmetic =>
    refine linked_of_instructions rfl fun symbol refers => ?_
    have same : symbol = Memory.temporary 0 := by
      simpa [references, pullOperands, eq_comm] using refers
    rw [same]
    exact knows.temporary
  | compare => exact linked_compare knows
  | convert => exact linked_nil
  | duplicateEmpty => exact linked_nil
  | duplicate => exact linked_of_silent rfl rfl
  | discard =>
    refine linked_of_silent ?_ ?_
    · simp [Line.isInstruction, Line.op]
    · simp [references]
  | @branch target _ =>
    refine linked_of_instructions rfl fun symbol refers => ?_
    have same : symbol = site.instructionLabel target := by simpa [references, eq_comm] using refers
    rw [same]
    exact knows.targets target (mem_targets member rfl)
  | @branchOn opcode mnemonic target _ _ kind =>
    refine linked_of_instructions rfl fun symbol refers => ?_
    have same : symbol = site.instructionLabel target := by simpa [references, eq_comm] using refers
    rw [same]
    refine knows.targets target (mem_targets member ?_)
    simp only [List.mem_cons, Prod.mk.injEq, List.not_mem_nil, or_false] at kind
    rcases kind with ⟨rfl, -⟩ | ⟨rfl, -⟩ <;> rfl
  | call found made => exact linked_called knows member rfl found (called_of_call made)
  | ret => exact linked_of_silent rfl rfl
  | retByte => exact linked_of_silent rfl rfl

theorem linked_row (knows : site.Knows outside) {pieces : List (Action × Fragment)} {last : Nat}
    (row : site.Row labels pieces last) :
    Linked outside
      { code := pieces.flatMap site.pieceCode
        data := pieces.flatMap fun piece => piece.2.data } := by
  induction row with
  | nil => exact linked_nil
  | @cons labels action fragment pieces last performed rest ih =>
    have labelled : Linked outside
        { code := site.actionLabels (Code.targets site.subroutine.instructions) action } := by
      refine ⟨?_, rfl, fun symbol refers => ?_⟩
      · intro line member
        rw [List.append_nil] at member
        obtain ⟨_, -, rfl⟩ := List.mem_map.mp member
        rfl
      · obtain ⟨line, member, reference⟩ := List.mem_filterMap.mp refers
        obtain ⟨_, -, rfl⟩ := List.mem_map.mp member
        contradiction
    have fragmentLinked : Linked outside { code := fragment.code, data := fragment.data } := by
      cases performed with
      | compiled found lowered => exact linked_lowered knows (List.mem_of_getElem? found) lowered
      | executed evaluated => exact linked_evaluated evaluated
    exact (labelled.after fragmentLinked).append ih

/-- A branch target has its label, as some action takes in the instruction. -/
theorem instructionLabel_defined {body : Body} (compiled : site.compile = .ok body) {target : Nat}
    (isTarget : target ∈ Code.targets site.subroutine.instructions)
    (inside : target < site.subroutine.instructions.length) :
    site.instructionLabel target ∈ definedLabels body.code := by
  obtain ⟨pieces, last, -, indices, code, -⟩ := row_of_compile compiled
  have taken : target ∈ (pieces.map Prod.fst).flatMap Action.indices := by
    rw [indices]
    exact List.mem_range.mpr inside
  obtain ⟨action, planned, takes⟩ := List.mem_flatMap.mp taken
  obtain ⟨piece, member, rfl⟩ := List.mem_map.mp planned
  rw [code]
  refine List.mem_filterMap.mpr ⟨.label (site.instructionLabel target), ?_, rfl⟩
  refine List.mem_flatMap.mpr ⟨piece, member, List.mem_append_left _ ?_⟩
  refine List.mem_map.mpr ⟨target, List.mem_filter.mpr ⟨takes, ?_⟩, rfl⟩
  simpa using isTarget

end Site

/-- The symbol of the console that calls to a subroutine access. -/
def accessed? (subroutine : Subroutine) : Option Symbol :=
  match subroutine.intrinsic? with
  | some (.storeToSymbol symbol _) => some symbol
  | some (.loadFromSymbol symbol) => some symbol
  | _ => none

/-- The names that compiled bodies refer to beside their own labels. -/
inductive Outside (types : TypeTable) (memory : Memory.Map) : Symbol → Prop
  | slot {allocation} (member : allocation ∈ memory.allocations) :
    Outside types memory allocation.symbol
  | subroutine {id callee} (reachable : Reachable types id)
    (found : types.subroutine? id = some callee) (kept : callee.replacesCall = false)
    (apart : callee.intrinsic? ≠ some .alwaysInline) : Outside types memory callee.label
  | console {subroutine symbol} (member : subroutine ∈ types.subroutines)
    (accesses : accessed? subroutine = some symbol) : Outside types memory symbol

section Bodies

variable {types : TypeTable} {graph : CallGraph} {ram : Memory.Ram} {memory : Memory.Map}
  {library : Library} {optimize : Bool} {bodies : Bodies} {subroutine : Subroutine}

theorem knows_of_supplied (allocated : Memory.Map.allocate types graph ram = .ok memory)
    (found : types.subroutine? subroutine.id = some subroutine)
    (reachable : Reachable types subroutine.id) (walked : subroutine.walksBody = true)
    (known : ∀ id other body, types.subroutine? id = some other → bodies id = some body →
      (∀ implementation, other.intrinsic? ≠ some (.useProvided implementation)) →
      Linked (Outside types memory) body)
    (wellFormed : types.WellFormed) :
    Site.Knows ⟨types.withBodies bodies, memory, subroutine⟩ fun symbol =>
      (∃ target ∈ Code.targets subroutine.instructions,
        symbol = Site.instructionLabel ⟨types.withBodies bodies, memory, subroutine⟩ target) ∨
      Outside types memory symbol := by
  have source : ∀ id callee, (types.withBodies bodies).subroutine? id = some callee →
      ∃ original, types.subroutine? id = some original ∧
        callee = original.withBody bodies := by
    intro id callee present
    rw [Program.subroutine?_withBodies, Option.map_eq_some_iff] at present
    obtain ⟨original, foundOriginal, same⟩ := present
    exact ⟨original, foundOriginal, same.symm⟩
  refine ⟨?_, ?_, ?_, ?_, ?_, ?_, ?_⟩
  · exact fun allocation member => .inr (.slot member)
  · obtain ⟨allocation, present, symbol⟩ := Memory.symbol_temporary allocated Nat.zero_lt_two
    rw [← symbol]
    exact .inr (.slot (List.mem_of_getElem? present))
  · exact fun target isTarget => .inl ⟨target, isTarget, rfl⟩
  · intro instruction member id callee symbol strobe calls present marked
    obtain ⟨original, foundOriginal, rfl⟩ := source id callee present
    rw [Subroutine.intrinsic?_withBody] at marked
    exact .inr (.console (Program.mem_subroutines.mpr ⟨id, foundOriginal⟩)
      (by rw [accessed?, marked]))
  · intro instruction member id callee symbol calls present marked
    obtain ⟨original, foundOriginal, rfl⟩ := source id callee present
    rw [Subroutine.intrinsic?_withBody] at marked
    exact .inr (.console (Program.mem_subroutines.mpr ⟨id, foundOriginal⟩)
      (by rw [accessed?, marked]))
  · intro instruction member id callee calls present kept apart
    obtain ⟨original, foundOriginal, rfl⟩ := source id callee present
    have called : Calls types subroutine.id id :=
      ⟨subroutine, found, CallGraph.walksBody_eq_true.mp walked, instruction, member,
        CallGraph.callee?_eq_some.mp calls⟩
    have outside : Outside types memory original.label :=
      .subroutine (reachable.callee called) foundOriginal kept apart
    exact .inr outside
  · intro instruction member id callee body calls present marked bodied
    obtain ⟨original, foundOriginal, rfl⟩ := source id callee present
    rw [Subroutine.body?_withBody, wellFormed.subroutineId id original foundOriginal] at bodied
    rw [Subroutine.intrinsic?_withBody] at marked
    refine (known id original body foundOriginal bodied ?_).mono fun symbol => .inr
    intro implementation provided
    simp [marked] at provided

/-- Every body that is not taken over is linked. -/
theorem linked_of_compiles (wellFormed : types.WellFormed)
    (built : CallGraph.build types = .ok graph)
    (allocated : Memory.Map.allocate types graph ram = .ok memory)
    (ran : Compiles types memory library optimize graph.order bodies) {id : SubroutineId}
    {body : Body} (found : types.subroutine? id = some subroutine)
    (present : bodies id = some body)
    (own : ∀ implementation, subroutine.intrinsic? ≠ some (.useProvided implementation)) :
    Linked (Outside types memory) body := by
  refine ran.forall_body (motive := fun subroutine body =>
    (∀ implementation, subroutine.intrinsic? ≠ some (.useProvided implementation)) →
      Linked (Outside types memory) body) wellFormed ?_ found present own
  intro subroutine body bodies found member kept known made own
  rcases subroutineBody_eq_ok kept made with
    ⟨implementation, marked, -⟩ | ⟨-, rfl⟩ | ⟨walked, compiled, done, rfl⟩
  · exact absurd marked (own implementation)
  · exact linked_of_silent rfl rfl
  · apply Linked.optimizeBody
    have reachable := (CallGraph.mem_order built).mp member
    have knows := knows_of_supplied allocated found reachable walked known wellFormed
    obtain ⟨pieces, last, row, -, code, data⟩ := Site.row_of_compile done
    have linked := Site.linked_row knows row
    rw [← code, ← data] at linked
    refine ⟨linked.plain, linked.tables, fun symbol refers => ?_⟩
    rcases linked.code symbol refers with inside | ⟨target, isTarget, rfl⟩ | outside
    · exact .inl inside
    · obtain ⟨instruction, inBody, branches⟩ := List.mem_filterMap.mp isTarget
      have inside := (wellFormed.sound _ _ found instruction inBody).refers
      rw [Site.operand_of_branchTarget? branches] at inside
      exact .inl (List.mem_append_left _ (Site.instructionLabel_defined done isTarget inside))
    · exact .inr outside

end Bodies

end Cartridge.Emit

namespace Cartridge.Listing

open Asm
open Program (Bodies Body Reachable Subroutine)

/-- Lines that need no names but their own. -/
def Closed (lines : List Line) : Prop :=
  ∀ symbol ∈ references lines, symbol ∈ definedNames lines

theorem closed_of_silent {lines : List Line} (silent : references lines = []) : Closed lines := by
  intro symbol refers
  rw [silent] at refers
  contradiction

theorem Closed.append {first second : List Line} (closed : Closed first) (next : Closed second) :
    Closed (first ++ second) := by
  intro symbol refers
  rw [references_append, List.mem_append] at refers
  rw [definedNames_append, List.mem_append]
  exact refers.imp (closed symbol) (next symbol)

theorem closed_clearUp (label : Symbol) {base : Value} (literal : base.symbol? = none)
    (length : Nat) : Closed (clearUp label base length) := by
  intro symbol refers
  have same : symbol = label := by
    unfold clearUp at refers
    split at refers <;> simpa [references, literal, eq_comm] using refers
  rw [same]
  exact List.mem_filterMap.mpr ⟨.label label, by simp [clearUp], rfl⟩

theorem closed_clearDown (label : Symbol) {base : Value} (literal : base.symbol? = none)
    (length : Nat) : Closed (clearDown label base length) := by
  intro symbol refers
  have same : symbol = label := by simpa [references, clearDown, literal, eq_comm] using refers
  rw [same]
  exact List.mem_filterMap.mpr ⟨.label label, by simp [clearDown], rfl⟩

theorem closed_prologue (ram : Memory.Ram) : Closed (prologue ram) := by
  refine ((closed_of_silent rfl).append ?_).append ?_
  · unfold clearZeroPage
    simp only
    split
    next => exact closed_of_silent rfl
    next =>
      split
      next => exact closed_clearDown _ rfl _
      next => exact closed_clearUp _ rfl _
  · unfold clearExtended
    induction pages ram.extended.start.toNat ram.extended.stop.toNat with
    | nil => exact closed_of_silent rfl
    | cons page pages ih => exact (closed_clearUp _ rfl _).append ih

variable {image : Image} {library : Library} {optimize : Bool} {program : Program}
  {bodies : Bodies}

theorem Image.MadeFrom.outside_defined (made : image.MadeFrom library optimize program bodies)
    {symbol : Symbol} (outside : Emit.Outside program.types image.memory symbol) :
    symbol ∈ definedNames image.lines ∨
      ∃ subroutine ∈ image.program.types.subroutines, Emit.accessed? subroutine = some symbol := by
  cases outside with
  | slot member => exact .inl (symbol_defined member)
  | subroutine reachable found kept apart =>
    exact .inl (made.label_defined found ((Program.CallGraph.mem_order made.graph).mpr reachable)
      kept apart)
  | @console subroutine symbol member accesses =>
    refine .inr ⟨subroutine.withBody bodies, ?_, accesses⟩
    rw [made.result, Program.subroutines_withBodies]
    exact List.mem_map_of_mem member

theorem definedNames_bodyLines {subroutine : Subroutine} {body : Body} {symbol : Symbol}
    (bodied : subroutine.body? = some body) (own : symbol ∈ Emit.bodyLabels body) :
    symbol ∈ definedNames (bodyLines subroutine) := by
  have labelled : symbol ∈ definedLabels (body.code ++ body.data) := by
    rwa [Emit.Site.definedLabels_append]
  rw [bodyLines, bodied]
  obtain ⟨line, member, defines⟩ := List.mem_filterMap.mp labelled
  refine List.mem_filterMap.mpr ⟨line, member, ?_⟩
  cases line <;> simp_all [Line.label?, Line.definition?]

/-- A compiled body refers to its labels and to what lies outside. -/
theorem Image.MadeFrom.compiled_defined (made : image.MadeFrom library optimize program bodies)
    {part : Part} (member : part ∈ image.parts) (source : part.source = .compiled) {symbol : Symbol}
    (refers : symbol ∈ references part.lines) :
    symbol ∈ definedNames image.lines ∨
      ∃ subroutine ∈ image.program.types.subroutines, Emit.accessed? subroutine = some symbol := by
  obtain ⟨id, subroutine, found, rfl⟩ := made.body_of_mem_parts member (.inl source)
  have own : ∀ implementation, subroutine.intrinsic? ≠ some (.useProvided implementation) := by
    intro implementation marked
    simp [bodyPart, bodySource, marked] at source
  have named := made.wellFormed.subroutineId id subroutine found
  cases present : bodies id with
  | none => simp [bodyPart, bodyLines, named, present, references] at refers
  | some body =>
    have bodied : (subroutine.withBody bodies).body? = some body := by
      rw [Subroutine.body?_withBody, named, present]
    have linked := Emit.linked_of_compiles made.wellFormed made.graph made.memory made.ran found
      present own
    have inCode : symbol ∈ references body.code := by
      simpa [bodyPart, bodyLines, named, present, references_append, linked.tables] using refers
    rcases linked.code symbol inCode with inside | outside
    · exact .inl (mem_definedNames member (definedNames_bodyLines bodied inside))
    · exact made.outside_defined outside

theorem references_openingLines (image : Image) : references image.openingLines = [] := by
  rw [references, List.filterMap_eq_nil_iff]
  intro line member
  simp only [Image.openingLines, equates, List.mem_append, List.mem_map, List.mem_cons,
    List.not_mem_nil, or_false] at member
  rcases member with ((rfl | rfl | rfl) | ⟨allocation, -, rfl⟩) | rfl | rfl | rfl <;> rfl

/-- Start-up code refers to its own labels, and the vectors to where it starts. -/
theorem Image.MadeFrom.layout_defined (made : image.MadeFrom library optimize program bodies)
    {part : Part} (member : part ∈ image.parts)
    (source : part.source = .frame ∨ part.source = .startup) {symbol : Symbol}
    (refers : symbol ∈ references part.lines) : symbol ∈ definedNames image.lines := by
  obtain ⟨entry, -, -, entries⟩ := made.entryParts_eq
  have started : entryPoint ∈ definedNames image.lines := by
    refine mem_definedNames (mem_parts.mpr (.inl rfl)) ?_
    exact List.mem_filterMap.mpr ⟨.label entryPoint, by simp [openingLines], rfl⟩
  have bodyless : ∀ subroutine, part ≠ bodyPart subroutine := by
    rintro subroutine rfl
    unfold bodyPart bodySource at source
    split at source <;> simp at source
  rcases mem_parts.mp member with rfl | isEntry | ⟨other, -, inside⟩ | rfl
  · rw [references_openingLines] at refers
    contradiction
  · rw [entries] at isEntry
    simp only [List.mem_cons, List.not_mem_nil, or_false] at isEntry
    rcases isEntry with rfl | rfl | body
    · contradiction
    · exact mem_definedNames member (closed_prologue image.ram symbol refers)
    · exact absurd body (bodyless _)
  · simp only [subroutineParts, List.mem_cons, List.not_mem_nil, or_false] at inside
    rcases inside with rfl | body
    · contradiction
    · exact absurd body (bodyless _)
  · have same : symbol = entryPoint := by
      simpa [references, vectorLines, Line.reference?, eq_comm] using refers
    rw [same]
    exact started

theorem Image.MadeFrom.provided_verbatim (made : image.MadeFrom library optimize program bodies)
    {part : Part} (member : part ∈ image.parts) (source : part.source = .provided) :
    part.lines = [] ∨ ∃ subroutine ∈ image.program.types.subroutines, ∃ implementation,
      subroutine.intrinsic? = some (.useProvided implementation) ∧
        library.get? implementation = some part.lines := by
  obtain ⟨id, subroutine, found, rfl⟩ := made.body_of_mem_parts member (.inr source)
  have named := made.wellFormed.subroutineId id subroutine found
  cases present : bodies id with
  | none => exact .inl (by simp [bodyPart, bodyLines, named, present])
  | some body =>
    obtain ⟨implementation, marked⟩ :
        ∃ implementation, subroutine.intrinsic? = some (.useProvided implementation) := by
      by_contra own
      simp only [bodyPart, bodySource, Subroutine.intrinsic?_withBody] at source
      split at source
      next implementation marked => exact own ⟨implementation, marked⟩
      next => contradiction
    refine .inr ⟨subroutine.withBody bodies, ?_, implementation, marked, ?_⟩
    · rw [made.result, Program.subroutines_withBodies]
      exact List.mem_map_of_mem (Program.mem_subroutines.mpr ⟨id, found⟩)
    · have taken : library.get? implementation = some (body.code ++ body.data) := by
        refine made.ran.forall_body (motive := fun subroutine body =>
          subroutine.intrinsic? = some (.useProvided implementation) →
            library.get? implementation = some (body.code ++ body.data))
          made.wellFormed ?_ found present marked
        intro subroutine body bodies found member kept known compiled marked
        rcases Emit.subroutineBody_eq_ok kept compiled with
          ⟨same, markedSame, code, provided, rfl⟩ | ⟨ignored, -⟩ | ⟨walked, -⟩
        · obtain rfl : implementation = same := by simpa [marked] using markedSame
          rwa [List.append_nil]
        · simp [marked] at ignored
        · simp [Program.CallGraph.walksBody_eq_true, marked] at walked
      simpa [bodyPart, bodyLines, named, present] using taken

end Cartridge.Listing

namespace Cartridge

open Asm Listing

/-- Every symbol that the code of a listing refers to is defined in the listing, outside of the
routines that were taken over as they are, and except for the symbols of the console that calls
access. So are those of the vectors. -/
theorem references_defined {module : Source.Module} {library : Library} {options : Options}
    {image : Image} (compiled : compile module library options = .ok image) :
    image.lines = image.parts.flatMap Part.lines ∧
    (∀ part ∈ image.parts, part.source = .provided → part.lines = [] ∨
      ∃ subroutine ∈ image.program.types.subroutines, ∃ implementation,
        subroutine.intrinsic? = some (.useProvided implementation) ∧
          library.get? implementation = some part.lines) ∧
    ∀ part ∈ image.parts, part.source ≠ .provided → ∀ symbol ∈ references part.lines,
      symbol ∈ definedNames image.lines ∨
        ∃ subroutine ∈ image.program.types.subroutines,
          Emit.accessed? subroutine = some symbol := by
  obtain ⟨program, bodies, -, -, made⟩ := compile_eq_ok compiled
  refine ⟨image.lines_eq_parts, fun part member source => made.provided_verbatim member source, ?_⟩
  intro part member own symbol refers
  cases source : part.source with
  | provided => exact absurd source own
  | compiled => exact made.compiled_defined member source refers
  | startup => exact .inl (made.layout_defined member (.inr source) refers)
  | frame => exact .inl (made.layout_defined member (.inl source) refers)

theorem references_defined_arcade :
    ∃ image, compile arcade shelf {} = .ok image ∧
      (∃ part ∈ image.parts, part.source = .compiled ∧
        "Game_Main_Inline_2_End" ∈ references part.lines) ∧
      (∃ part ∈ image.parts, part.source = .provided ∧ "SWCHB" ∈ references part.lines) ∧
      ∀ part ∈ image.parts, part.source ≠ .provided → ∀ symbol ∈ references part.lines,
        symbol ∈ definedNames image.lines ∨
          ∃ subroutine ∈ image.program.types.subroutines,
            Emit.accessed? subroutine = some symbol := by
  have passed : (compile arcade shelf {}).toOption.any (fun image =>
      image.parts.any (fun part =>
        part.source == .compiled && (references part.lines).contains "Game_Main_Inline_2_End") &&
      image.parts.any fun part =>
        part.source == .provided && (references part.lines).contains "SWCHB") = true := by
    decide +kernel
  obtain ⟨image, compiled, parts⟩ := exists_of_any passed
  obtain ⟨-, -, defined⟩ := references_defined compiled
  refine ⟨image, compiled, ?_, ?_, defined⟩ <;> simp_all

end Cartridge
