import Cartridge.Proofs.Ingestion
import Cartridge.Proofs.Operators
import Cartridge.Proofs.TypedRun

/-!
Compiled code does what its instructions mean.

While a run is at an instruction, the processor is at the line where the code of that instruction
starts, and holds the stack and the memory of the run. Code of an instruction that does not branch
is run through to its end; a branch goes to the label of its target; a return stops at the
instruction that leaves the body, with the result in the accumulator.
-/

namespace Cartridge.Machine

open Asm (Line Mnemonic definedLabels)
open Code (EvalStack Instruction)
open Emit (Fragment Progress Site)
open Memory (Allocation)

theorem type_of_slot? {site : Site} {operand : Code.Operand} {allocation : Allocation}
    {type : ValueType} (slot : site.slot? operand = some (allocation, type)) :
    type ∈ site.subroutine.locals ∨ type ∈ site.subroutine.parameters ∨
      ∃ declared ∈ site.types.types, ∃ field ∈ declared.fields, field.type = type := by
  cases operand with
  | «local» n =>
    obtain ⟨found, placed, rest⟩ := Option.bind_eq_some_iff.mp slot
    obtain ⟨held, known, made⟩ := Option.bind_eq_some_iff.mp rest
    cases made
    exact .inl (List.mem_of_getElem? known)
  | argument n =>
    obtain ⟨found, placed, rest⟩ := Option.bind_eq_some_iff.mp slot
    obtain ⟨held, known, made⟩ := Option.bind_eq_some_iff.mp rest
    cases made
    exact .inr (.inl (List.mem_of_getElem? known))
  | field id =>
    obtain ⟨field, known, rest⟩ := Option.bind_eq_some_iff.mp slot
    obtain ⟨declared, inTable, inType⟩ := Option.bind_eq_some_iff.mp known
    split at rest
    next =>
      obtain ⟨found, placed, made⟩ := Option.bind_eq_some_iff.mp rest
      cases made
      exact .inr (.inr ⟨declared, List.mem_of_getElem? inTable, field,
        List.mem_of_getElem? inType, rfl⟩)
    next => contradiction
  | _ => contradiction

theorem branchOn_decides {opcode : Code.Opcode} {mnemonic : Mnemonic}
    (kind : (opcode, mnemonic) ∈
      [(Code.Opcode.branchIfTrue, Mnemonic.bne), (.branchIfFalse, .beq)]) :
    ∃ isTaken : UInt8 → Bool,
      (∀ (flags : Flags) byte, flags.zero = (byte == 0) →
        flags.leaves? mnemonic = some (isTaken byte)) ∧
      ∀ wiring site config target,
        perform? wiring site config ⟨opcode, .target target⟩ =
          config.branchOn? isTaken target := by
  simp only [List.mem_cons, List.not_mem_nil, or_false, Prod.mk.injEq] at kind
  rcases kind with ⟨rfl, rfl⟩ | ⟨rfl, rfl⟩
  · refine ⟨(· != 0), fun flags byte zero => ?_, fun _ _ _ _ => rfl⟩
    simp [Flags.leaves?, zero, bne]
  · refine ⟨(· == 0), fun flags byte zero => ?_, fun _ _ _ _ => rfl⟩
    simp [Flags.leaves?, zero]

section Instructions

variable {frame : Frame} {site : Site} {code : List Line} {line index labels : Nat}
  {instruction : Instruction} {tracked types : EvalStack} {fragment : Fragment}
  {config next : Config} {touched : List UInt16} {cpu : Cpu} {lineAt : Nat → Nat}

theorem runs_storeField (sound : frame.ClearOfTemporary) {offset : Nat} {lines : List Line}
    {value : Bytes} (made : site.storeFieldLines index value.length offset = .ok lines)
    {cells : Cells} {bytes : List UInt8} {pointer : UInt8}
    (represents : Represents frame cells (bytes ++ [pointer] ++ value) cpu)
    (free : ∀ address ∈ pageSpan pointer offset value.length,
      ¬frame.Reserved (frame.wiring.cell address)) :
    frame.wiring.Runs lines cpu
      (Represents frame
        (frame.wiring.writeAll cells (pageSpan pointer offset value.length) value) bytes) := by
  rcases Site.storeFieldLines_eq_ok made with ⟨empty, rfl⟩ | ⟨single, rfl⟩ | ⟨-, -, rfl⟩
  · obtain rfl := List.eq_nil_of_length_eq_zero empty
    rw [List.append_nil] at represents
    exact runs_pull represents fun next held _ => .nil held
  · obtain ⟨byte, rfl⟩ := List.length_eq_one_iff.mp single
    exact runs_storeField_byte represents free
  · exact runs_storeField_wide sound represents free

theorem reaches_branchOn {opcode : Code.Opcode} {mnemonic : Mnemonic} {target : Nat}
    (kind : (opcode, mnemonic) ∈
      [(Code.Opcode.branchIfTrue, Mnemonic.bne), (.branchIfFalse, .beq)])
    (placed : LinesAt code line [.op .pla, .direct mnemonic (site.instructionLabel target)])
    (represents : Represents frame config.cells (stackBytes config.stack) cpu)
    (performed : perform? frame.wiring site config ⟨opcode, .target target⟩ =
      some ⟨touched, .goesOn next⟩)
    (behind : line + 2 = lineAt (config.index + 1))
    (place : lineOf? code (site.instructionLabel target) = some (lineAt target)) :
    ∃ after, frame.wiring.Reaches code ⟨line, cpu⟩ ⟨lineAt next.index, after⟩ ∧
      Represents frame next.cells (stackBytes next.stack) after := by
  obtain ⟨index, stack, cells⟩ := config
  obtain ⟨isTaken, decides, means⟩ := branchOn_decides kind
  rw [means] at performed
  obtain ⟨byte, below, rfl, -, rfl⟩ := branchOn?_eq performed
  have pulls : frame.wiring.Runs [.op .pla] cpu fun after =>
      Represents frame cells (stackBytes below) after ∧ after.flags.zero = (byte == 0) :=
    runs_pull represents fun after held pulled => .nil ⟨held, pulled.zero⟩
  obtain ⟨after, pulled, held, zero⟩ := reaches_of_runs (@LinesAt.left _ _ [_] _ placed) pulls
  have branched : frame.wiring.step? code ⟨line + 1, after⟩ =
      some ⟨if isTaken byte then lineAt target else line + 2, after⟩ :=
    step?_branch placed.tail.head (decides after.flags byte zero) place
  have goal : (if isTaken byte then lineAt target else line + 2) =
      lineAt (if isTaken byte then target else index + 1) := by
    split
    · rfl
    · exact behind
  rw [goal] at branched
  exact ⟨after, pulled.tail branched, held⟩

/-- The code of an instruction gets to the line of the instruction that the run goes to. -/
theorem reaches_lowered (sound : frame.ClearOfTemporary)
    (named : ∀ allocation ∈ site.memory.allocations,
      frame.wiring.address allocation.symbol = allocation.address)
    (small : ∀ operand allocation type, site.slot? operand = some (allocation, type) →
      type.size ≤ 256)
    (distinct : (definedLabels code).Nodup)
    (lowered : site.Lowered index labels instruction tracked fragment)
    (placed : LinesAt code line fragment.code)
    (behind : line + fragment.code.length = lineAt (config.index + 1))
    (targets : ∀ target, instruction.branchTarget? = some target →
      lineOf? code (site.instructionLabel target) = some (lineAt target))
    (typed : Typed types config.stack) (known : tracked <+: types)
    (represents : Represents frame config.cells (stackBytes config.stack) cpu)
    (performed : perform? frame.wiring site config instruction = some ⟨touched, .goesOn next⟩)
    (free : ∀ address ∈ touched, ¬frame.Reserved (frame.wiring.cell address))
    (room : (stackBytes next.stack).length ≤ frame.depth) :
    ∃ after, frame.wiring.Reaches code ⟨line, cpu⟩ ⟨lineAt next.index, after⟩ ∧
      Represents frame next.cells (stackBytes next.stack) after := by
  obtain ⟨index, stack, cells⟩ := config
  -- Code that does not branch is run through, and the next instruction starts behind it.
  cases lowered with
  | nop =>
    obtain ⟨-, rfl⟩ := goOn_eq performed
    exact behind ▸ reaches_of_runs placed (.nil represents)
  | @constant value _ fits =>
    obtain ⟨-, rfl⟩ := goOn_eq performed
    rw [stackBytes, List.length_append, List.length_singleton] at room
    have runs := runs_immediate sound represents room (.byte (UInt8.ofNat value.toNat))
    rw [Wiring.value, UInt8.toUInt8_toUInt16] at runs
    exact behind ▸ reaches_of_runs placed runs
  | load loads slot =>
    rw [perform?_load loads] at performed
    obtain ⟨allocation, type, found, rfl, rfl⟩ := load?_eq performed
    cases found.symm.trans slot
    have address := named _ (Site.mem_of_slot? slot)
    simp only [stackBytes, List.length_append, readAll_length, slotSpan_length] at room
    rw [← address] at free ⊢
    exact behind ▸ reaches_of_runs placed
      (runs_loadLines sound represents (small _ _ _ slot) free room)
  | store stores slot =>
    rw [perform?_store stores] at performed
    obtain ⟨allocation, type, value, below, found, rfl, sized, rfl, rfl⟩ := store?_eq performed
    cases found.symm.trans slot
    have address := named _ (Site.mem_of_slot? slot)
    rw [← address] at free ⊢
    exact behind ▸ reaches_of_runs placed
      (runs_storeLines represents (small _ _ _ slot) sized free)
  | @staticAddress _ allocation _ _ slot near =>
    obtain ⟨other, type, found, -, rfl⟩ := staticAddress_eq performed
    cases found.symm.trans slot
    rw [stackBytes, List.length_append, List.length_singleton] at room
    have runs := runs_immediate sound represents room (.symbol allocation.symbol)
    rw [Wiring.value, named _ (Site.mem_of_slot? slot)] at runs
    exact behind ▸ reaches_of_runs placed runs
  | loadField member reach address =>
    obtain ⟨type, offset, pointer, below, found, rfl, rfl, rfl⟩ := loadField_eq performed
    cases found.symm.trans member
    simp only [stackBytes, List.length_append, readAll_length, pageSpan_length] at room
    exact behind ▸ reaches_of_runs placed (runs_loadField sound represents free room)
  | fieldAddress member reach address =>
    obtain ⟨type, offset, pointer, below, found, rfl, -, rfl⟩ := fieldAddress_eq performed
    cases found.symm.trans member
    exact behind ▸ reaches_of_runs placed (runs_fieldAddress sound represents _)
  | storeField member reach address lines =>
    obtain ⟨type, offset, value, pointer, below, found, rfl, sized, rfl, rfl⟩ :=
      storeField_eq performed
    cases found.symm.trans member
    rw [← sized] at lines free ⊢
    exact behind ▸ reaches_of_runs placed (runs_storeField sound lines represents free)
  | initObject reach address =>
    obtain ⟨pointer, below, rfl, rfl, rfl⟩ := initObject_eq performed
    exact behind ▸ reaches_of_runs placed (runs_initObject represents free)
  | arithmetic kind byte secondByte =>
    obtain ⟨combined, computes, means⟩ := arithmetic_computes kind
    rw [means] at performed
    obtain ⟨first, second, below, rfl, -, rfl⟩ := combine?_eq performed
    exact behind ▸ reaches_of_runs placed (runs_arithmetic sound computes represents)
  | compare kind byte secondByte =>
    obtain ⟨combined, decides, means⟩ := compare_decides kind
    rw [means] at performed
    obtain ⟨first, second, below, rfl, -, rfl⟩ := combine?_eq performed
    exact behind ▸ reaches_compare sound decides distinct placed represents
  | convert byte =>
    obtain ⟨byte, below, rfl, -, rfl⟩ := convert_eq performed
    exact behind ▸ reaches_of_runs placed (.nil represents)
  | duplicateEmpty empty =>
    -- The code was made for the type that the tracker knew, and the value has its size.
    obtain ⟨value, below, rfl, -, rfl⟩ := duplicate_eq performed
    obtain rfl := List.eq_nil_of_length_eq_zero ((typed.top known).trans empty)
    refine behind ▸ reaches_of_runs placed (.nil ?_)
    simpa [stackBytes] using represents
  | duplicate single =>
    obtain ⟨value, below, rfl, -, rfl⟩ := duplicate_eq performed
    obtain ⟨byte, rfl⟩ := List.length_eq_one_iff.mp ((typed.top known).trans single)
    simp only [stackBytes, List.length_append, List.length_singleton] at room
    exact behind ▸ reaches_of_runs placed (runs_duplicate sound represents room)
  | discard =>
    obtain ⟨value, below, rfl, -, rfl⟩ := discard_eq performed
    rw [← typed.top known] at placed behind
    exact behind ▸ reaches_of_runs placed (runs_discard represents)
  | @branch target _ =>
    obtain ⟨-, rfl⟩ := goTo_eq performed
    have jumps : frame.wiring.step? code ⟨line, cpu⟩ = some ⟨lineAt target, cpu⟩ :=
      step?_branch placed.head rfl (targets target rfl)
    exact ⟨cpu, .single jumps, represents⟩
  | @branchOn opcode mnemonic target _ _ kind byte =>
    refine reaches_branchOn kind placed represents performed behind (targets target ?_)
    simp only [List.mem_cons, List.not_mem_nil, or_false, Prod.mk.injEq] at kind
    rcases kind with ⟨rfl, -⟩ | ⟨rfl, -⟩ <;> rfl
  | call found made => contradiction
  | ret empty =>
    rcases ret_eq performed with ⟨-, made⟩ | ⟨-, byte, below, -, made⟩ <;> cases made
  | retByte byte =>
    rcases ret_eq performed with ⟨-, made⟩ | ⟨-, byte, below, -, made⟩ <;> cases made

end Instructions

/-- The line where the code of an instruction starts. -/
def lineAt (site : Site) (index : Nat) : Nat :=
  match site.progress index with
  | .ok before => before.code.length
  | .error _ => 0

section Compiled

variable {frame : Frame} {site : Site} {body : Program.Body} {config : Config}
  {touched : List UInt16} {cpu : Cpu} {before : Progress}

theorem lineAt_eq {index : Nat} (reached : site.progress index = .ok before) :
    lineAt site index = before.code.length := by
  rw [lineAt, reached]

theorem line_of_target (ingested : site.subroutine.Ingested) (callFree : site.CallFree)
    (compiled : site.compile = .ok body) {instruction : Instruction}
    (member : instruction ∈ site.subroutine.instructions) {target : Nat}
    (branches : instruction.branchTarget? = some target) :
    lineOf? body.code (site.instructionLabel target) = some (lineAt site target) := by
  have inside := ingested.branchTarget_lt member branches
  obtain ⟨done, complete, -⟩ := (Site.compile_eq_ok callFree.executesNone).mp compiled
  obtain ⟨entry, reached⟩ := Site.progress_of_le complete (Nat.le_of_lt inside)
  have isTarget : target ∈ Code.targets site.subroutine.instructions :=
    List.mem_filterMap.mpr ⟨instruction, member, branches⟩
  rw [lineAt_eq reached]
  exact Site.lineOf?_instructionLabel callFree compiled isTarget reached inside

/-- The code of an instruction is entered through its label and ends where that of the next one
starts. -/
theorem code_at (callFree : site.CallFree) (compiled : site.compile = .ok body) {index : Nat}
    {instruction : Instruction} (found : site.subroutine.instructions[index]? = some instruction)
    (reached : site.progress index = .ok before) :
    ∃ fragment line,
      site.Lowered index before.labels instruction (before.tracker.enter index).stack fragment ∧
      LinesAt body.code line fragment.code ∧
      (∀ (wiring : Wiring) cpu,
        wiring.Reaches body.code ⟨lineAt site index, cpu⟩ ⟨line, cpu⟩) ∧
      line + fragment.code.length = lineAt site (index + 1) := by
  have inside := (List.getElem?_eq_some_iff.mp found).1
  obtain ⟨same, fragment, reachedAgain, stepped, advanced⟩ :=
    Site.step_of_compile callFree.executesNone compiled found
  obtain rfl := Except.ok.inj (reachedAgain.symm.trans reached)
  have placed := Site.placed_of_compile callFree compiled advanced inside
  refine ⟨fragment, _, Site.lowered_of_step stepped, placed.right, ?_, ?_⟩
  · intro wiring cpu
    rw [lineAt_eq reached]
    refine reaches_of_run? placed.left ?_
    rw [Site.actionLabels_compile]
    split <;> rfl
  · rw [lineAt_eq advanced, Site.Progress.after, List.length_append, List.length_append]

theorem Run.reaches (ingested : site.subroutine.Ingested) (callFree : site.CallFree)
    (compiled : site.compile = .ok body) (sound : frame.ClearOfTemporary)
    (named : ∀ allocation ∈ site.memory.allocations,
      frame.wiring.address allocation.symbol = allocation.address)
    (small : ∀ operand allocation type, site.slot? operand = some (allocation, type) →
      type.size ≤ 256)
    (start : Represents frame cpu.cells [] cpu) (run : Run frame site cpu.cells config) :
    ∃ after, frame.wiring.Reaches body.code ⟨0, cpu⟩ ⟨lineAt site config.index, after⟩ ∧
      Represents frame config.cells (stackBytes config.stack) after := by
  induction run with
  | start => exact ⟨cpu, .refl, start⟩
  | step run evaluated free room ih =>
    obtain ⟨now, reaches, represents⟩ := ih
    -- The path of the run has the types that the tracker knew when the code was made.
    obtain ⟨types, path, typed⟩ := run.path
    obtain ⟨instruction, found, performed⟩ := evaluate?_eq evaluated
    have inside := (List.getElem?_eq_some_iff.mp found).1
    obtain ⟨before, reached, known⟩ :=
      Site.tracked_prefix callFree.executesNone compiled path inside
    obtain ⟨fragment, line, lowered, placed, enters, behind⟩ :=
      code_at callFree compiled found reached
    obtain ⟨after, ran, holds⟩ := reaches_lowered sound named small
      (Site.definedLabels_nodup callFree compiled) lowered placed behind
      (fun target => line_of_target ingested callFree compiled (List.mem_of_getElem? found))
      typed known represents performed free room
    exact ⟨after, reaches.trans ((enters _ now).trans ran), holds⟩

theorem Run.inside (ingested : site.subroutine.Ingested) {cells : Cells}
    (run : Run frame site cells config) :
    config.index ≤ site.subroutine.instructions.length := by
  cases run with
  | start => exact Nat.zero_le _
  | step earlier evaluated free room =>
    obtain ⟨types, -, typed⟩ := earlier.path
    obtain ⟨instruction, found, performed⟩ := evaluate?_eq evaluated
    rcases (typed_of_perform? typed performed).1 with ⟨-, next⟩ | branches
    · rw [next]
      exact (List.getElem?_eq_some_iff.mp found).1
    · exact Nat.le_of_lt (ingested.branchTarget_lt (List.mem_of_getElem? found) branches)

/-- A return stops at the instruction that leaves the body. -/
theorem reaches_return (callFree : site.CallFree) (compiled : site.compile = .ok body)
    (represents : Represents frame config.cells (stackBytes config.stack) cpu) {result : Bytes}
    {last : Config}
    (evaluated : evaluate? frame.wiring site config = some ⟨touched, .returns result last⟩) :
    ∃ line after, frame.wiring.Reaches body.code ⟨lineAt site config.index, cpu⟩ ⟨line, after⟩ ∧
      body.code[line]? = some (.op .rts) ∧
      Represents frame last.cells (stackBytes last.stack) after ∧
      result.length = site.subroutine.returns.size ∧ ∀ byte ∈ result, after.a = byte := by
  obtain ⟨instruction, found, performed⟩ := evaluate?_eq evaluated
  obtain ⟨before, -, reached, -, -⟩ :=
    Site.step_of_compile callFree.executesNone compiled found
  obtain ⟨fragment, line, lowered, placed, enters, -⟩ := code_at callFree compiled found reached
  obtain ⟨opcode, operand⟩ := instruction
  obtain rfl : opcode = .ret := opcode_of_returns performed
  obtain ⟨index, stack, cells⟩ := config
  generalize (before.tracker.enter index).stack = tracked at lowered
  cases lowered with
  | ret empty =>
    rcases ret_eq performed with ⟨-, made⟩ | ⟨nonempty, -⟩
    · cases made
      exact ⟨line, cpu, enters _ cpu, placed.head, represents, empty.symm, by simp⟩
    · exact absurd empty nonempty
  | retByte single =>
    rcases ret_eq performed with ⟨empty, -⟩ | ⟨-, byte, below, rfl, made⟩
    · rw [single] at empty
      contradiction
    · cases made
      have pulls : frame.wiring.Runs [.op .pla] cpu fun after =>
          Represents frame cells (stackBytes below) after ∧ after.a = byte :=
        runs_pull represents fun after held pulled => .nil ⟨held, pulled.a⟩
      obtain ⟨after, pulled, held, loaded⟩ := reaches_of_runs (@LinesAt.left _ _ [_] _ placed) pulls
      exact ⟨line + 1, after, (enters _ cpu).trans pulled, placed.tail.head, held, single.symm,
        by simp [loaded]⟩
  | load loads slot => simp at loads
  | store stores slot => simp at stores
  | arithmetic kind byte secondByte => simp at kind
  | compare kind byte secondByte => simp at kind
  | branchOn kind byte => simp at kind

/-- The body of an ingested subroutine without calls does on the processor what its instructions
mean: wherever a run of them gets, the code gets to the line where that instruction was compiled to,
with the same memory and the same stack, and when they return, so does the code. -/
theorem code_preserves_meaning (ingested : site.subroutine.Ingested) (callFree : site.CallFree)
    (compiled : site.compile = .ok body)
    (small : ∀ operand allocation type, site.slot? operand = some (allocation, type) →
      type.size ≤ 256)
    (sound : frame.ClearOfTemporary)
    (named : ∀ allocation ∈ site.memory.allocations,
      frame.wiring.address allocation.symbol = allocation.address)
    (binary : cpu.flags.decimal = false) (entered : cpu.s = frame.base)
    (run : Run frame site cpu.cells config) :
    (∃ before after, site.progressBefore config.index = .ok before ∧
      frame.wiring.Reaches body.code ⟨0, cpu⟩ ⟨before.code.length, after⟩ ∧
      Represents frame config.cells (stackBytes config.stack) after) ∧
    ∀ touched result last,
      evaluate? frame.wiring site config = some ⟨touched, .returns result last⟩ →
      ∃ line after, frame.wiring.Reaches body.code ⟨0, cpu⟩ ⟨line, after⟩ ∧
        body.code[line]? = some (.op .rts) ∧
        Represents frame last.cells (stackBytes last.stack) after ∧
        result.length = site.subroutine.returns.size ∧ ∀ byte ∈ result, after.a = byte := by
  have start : Represents frame cpu.cells [] cpu := by
    refine ⟨binary, ?_, Nat.zero_le _, by simp, fun _ _ => rfl⟩
    simpa using entered
  obtain ⟨after, reaches, represents⟩ :=
    run.reaches ingested callFree compiled sound named small start
  have inside := run.inside ingested
  obtain ⟨done, complete, -⟩ := (Site.compile_eq_ok callFree.executesNone).mp compiled
  obtain ⟨before, reached⟩ := Site.progress_of_le complete inside
  constructor
  · refine ⟨before, after, ?_, ?_, represents⟩
    · rw [Site.progressBefore_eq callFree.executesNone inside, reached]
    · rwa [← lineAt_eq reached]
  · intro touched result last evaluated
    obtain ⟨line, final, returns, leaves, holds, results⟩ :=
      reaches_return callFree compiled represents evaluated
    exact ⟨line, final, reaches.trans returns, leaves, holds, results⟩

end Compiled

/-- A type with a loop that reaches the fields of its one instance through a pointer. -/
def fleet : Source.Module :=
  { types := [
      { name := "Ship"
        fields := [
          { name := "flagship", type := "Ship", isStatic := true },
          { name := "course", type := "byte" },
          { name := "speed", type := "byte" }]
        subroutines := [
          { name := "Hurry", returns := "byte", isEntry := true
            instructions := [
              { opcode := "ldsflda", operand? := some (.field ⟨"Ship", "flagship"⟩) },
              { opcode := "ldsflda", operand? := some (.field ⟨"Ship", "flagship"⟩) },
              { opcode := "ldfld", operand? := some (.field ⟨"Ship", "speed"⟩) },
              { opcode := "ldc", operand? := some (.constant 1) },
              { opcode := "add" },
              { opcode := "stfld", operand? := some (.field ⟨"Ship", "speed"⟩) },
              { opcode := "ldsfld", operand? := some (.field ⟨"Ship", "flagship"⟩) },
              { opcode := "pop" },
              { opcode := "ldsflda", operand? := some (.field ⟨"Ship", "flagship"⟩) },
              { opcode := "ldfld", operand? := some (.field ⟨"Ship", "speed"⟩) },
              { opcode := "ldc", operand? := some (.constant 2) },
              { opcode := "clt" },
              { opcode := "brtrue", operand? := some (.target 0) },
              { opcode := "ldsflda", operand? := some (.field ⟨"Ship", "flagship"⟩) },
              { opcode := "ldfld", operand? := some (.field ⟨"Ship", "speed"⟩) },
              { opcode := "ret" }] }] }] }

def hurry : Program.Subroutine :=
  { id := ⟨5, 0⟩, name := "Hurry", fullName := "Ship::Hurry", returns := .byte, isEntry := true
    instructions := [
      ⟨.loadStaticFieldAddress, .field ⟨5, 0⟩⟩, ⟨.loadStaticFieldAddress, .field ⟨5, 0⟩⟩,
      ⟨.loadField, .field ⟨5, 2⟩⟩, ⟨.loadConstant, .constant 1⟩, ⟨.add, .empty⟩,
      ⟨.storeField, .field ⟨5, 2⟩⟩, ⟨.loadStaticField, .field ⟨5, 0⟩⟩, ⟨.pop, .empty⟩,
      ⟨.loadStaticFieldAddress, .field ⟨5, 0⟩⟩, ⟨.loadField, .field ⟨5, 2⟩⟩,
      ⟨.loadConstant, .constant 2⟩, ⟨.compareLess, .empty⟩, ⟨.branchIfTrue, .target 0⟩,
      ⟨.loadStaticFieldAddress, .field ⟨5, 0⟩⟩, ⟨.loadField, .field ⟨5, 2⟩⟩, ⟨.ret, .empty⟩] }

def fleetTypes : Program.TypeTable :=
  let ship : ValueType := .record (.extend "Ship" none [("course", .byte), ("speed", .byte)])
  { types := [
      { id := 0, name := "object", value := .primitive .object },
      { id := 1, name := "value", base? := some 0, value := .primitive .value },
      { id := 2, name := "void", base? := some 1, value := .primitive .void },
      { id := 3, name := "byte", base? := some 1, value := .byte },
      { id := 4, name := "bool", base? := some 1, value := .bool },
      { id := 5, name := "Ship", base? := some 0, value := ship, subroutines := [hurry]
        fields := [
          { id := ⟨5, 0⟩, name := "flagship", type := ship, offset? := none },
          { id := ⟨5, 1⟩, name := "course", type := .byte, offset? := some 0 },
          { id := ⟨5, 2⟩, name := "speed", type := .byte, offset? := some 1 }] }]
    names := [("Ship", 5), ("bool", 4), ("byte", 3), ("void", 2), ("value", 1), ("object", 0)] }

def hurrySite : Site :=
  { types := fleetTypes
    memory := {
      allocations := [
        { symbol := "TEMP0", address := 0x80, size := 1 },
        { symbol := "TEMP1", address := 0x81, size := 1 },
        { symbol := "Ship_flagship", address := 0x82, size := 2 }]
      slots := [(.field ⟨5, 0⟩, 2)] }
    subroutine := hurry }

def hurryFrame : Frame :=
  { wiring := .console fun symbol =>
      ((hurrySite.memory.allocations.find? fun allocation =>
        allocation.symbol == symbol).map (·.address)).getD 0
    base := 0xFF
    depth := 4 }

def hurryCpu : Cpu :=
  { a := 0, x := 0, y := 0, s := 0xFF
    flags := { carry := false, zero := false, interrupt := false, decimal := false
               overflow := false, negative := false }
    cells := fun _ => 0 }

/-- Two rounds of the loop, and a return with the speed that they came to. -/
theorem code_preserves_meaning_hurry :
    hurrySite.subroutine.Ingested ∧ hurrySite.CallFree ∧ hurryFrame.ClearOfTemporary ∧
      ∃ body config, hurrySite.compile = .ok body ∧
        Run hurryFrame hurrySite hurryCpu.cells config ∧ config.index = 15 ∧
        config.stack = [[2]] ∧
        ∃ line after, hurryFrame.wiring.Reaches body.code ⟨0, hurryCpu⟩ ⟨line, after⟩ ∧
          body.code[line]? = some (.op .rts) ∧ after.a = 2 := by
  have resolved : Program.ofModule fleet = .ok { types := fleetTypes, entry := ⟨5, 0⟩ } := by
    with_unfolding_all rfl
  have ingested : hurrySite.subroutine.Ingested := ⟨fleet, _, resolved, List.mem_singleton_self _⟩
  have callFree : hurrySite.CallFree := by
    simp [Site.CallFree, hurrySite, hurry]
  have sound : hurryFrame.ClearOfTemporary :=
    ⟨⟨Wiring.console_mirrored _, by decide⟩, by decide⟩
  have small : ∀ operand allocation type, hurrySite.slot? operand = some (allocation, type) →
      type.size ≤ 256 := by
    intro operand allocation type slot
    have fields : ∀ declared ∈ fleetTypes.types, ∀ field ∈ declared.fields,
        field.type.size ≤ 256 := by decide
    rcases type_of_slot? slot with held | held | ⟨declared, inTable, field, inType, rfl⟩
    · contradiction
    · contradiction
    · exact fields declared inTable field inType
  have followed : (follow? hurryFrame hurrySite 28 ⟨0, [], fun _ => 0⟩).map
      (fun config => (config.index, config.stack)) = some (15, [[2]]) := by rfl
  obtain ⟨⟨index, stack, cells⟩, reached, state⟩ := Option.map_eq_some_iff.mp followed
  obtain ⟨rfl, rfl⟩ := Prod.mk.inj state
  have run : Run hurryFrame hurrySite hurryCpu.cells ⟨15, [[2]], cells⟩ := Run.start.follow reached
  obtain ⟨body, compiled⟩ : ∃ body, hurrySite.compile = .ok body := ⟨_, by with_unfolding_all rfl⟩
  obtain ⟨-, returns⟩ := code_preserves_meaning ingested callFree compiled small sound
    (by decide) rfl rfl run
  obtain ⟨line, after, reaches, leaves, -, -, result⟩ := returns [] [2] ⟨15, [], cells⟩ rfl
  exact ⟨ingested, callFree, sound, body, _, compiled, run, rfl, rfl, line, after, reaches, leaves,
    result 2 List.mem_cons_self⟩

end Cartridge.Machine
