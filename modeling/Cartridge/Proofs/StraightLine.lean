import Cartridge.Proofs.NormalForm
import Cartridge.Proofs.Processor

/-!
Straight-line code under the peephole rules.

The processor is seen here with its stack apart from memory. A pushed byte that is pulled again, or
a stored one that is loaded again, is where it was, so that dropping the lines changes nothing but
the two flags that tell of the last byte. No instruction of straight-line code depends on these, so
a run that has other flags does the same otherwise. This is shown for one rewriting step, from which
it follows for the whole pass.
-/

namespace Cartridge.Machine

open Asm (Instruction Line Mnemonic Operand)
open Asm.Peephole (Reduces optimize reduces_optimize)

/-- A processor whose stack is not in memory, with the topmost byte first. -/
structure Apart where
  cpu : Cpu
  stack : List UInt8

/-- Other flags for zero and negative. -/
def Cpu.retell (cpu : Cpu) (zero negative : Bool) : Cpu :=
  { cpu with flags := { cpu.flags with zero, negative } }

/-- The same but for the flags for zero and negative. -/
def Apart.retell (state : Apart) (zero negative : Bool) : Apart :=
  { state with cpu := state.cpu.retell zero negative }

namespace Wiring

/-- What a line does, where only pushing and pulling the accumulator uses the stack. -/
def line? (wiring : Wiring) (state : Apart) : Line → Option Apart
  | .instruction ⟨.pha, .implied⟩ => some { state with stack := state.cpu.a :: state.stack }
  | .instruction ⟨.pla, .implied⟩ =>
    match state.stack with
    | [] => none
    | byte :: stack => some { cpu := state.cpu.loadA byte, stack }
  | .instruction instruction =>
    (wiring.execute? instruction state.cpu).map fun cpu => { state with cpu }
  | _ => some state

def straight? (wiring : Wiring) (lines : List Line) (state : Apart) : Option Apart :=
  lines.foldlM wiring.line? state

end Wiring

/-- Loads, stores, transfers between registers, counting, logic, shifts, arithmetic, comparisons,
and the instructions that set or clear a flag. -/
def Mnemonic.isStraight : Mnemonic → Bool
  | .pha | .pla => true
  | .lda | .ldx | .ldy | .sta | .stx | .sty | .tax | .tay | .txa | .tya => true
  | .inc | .inx | .iny | .dec | .dex | .dey => true
  | .and | .ora | .eor | .bit | .asl | .lsr | .rol | .ror => true
  | .adc | .sbc | .cmp | .cpx | .cpy => true
  | .clc | .cld | .cli | .clv | .sec | .sed | .sei | .nop => true
  | _ => false

def Operand.isIndirect : Operand → Bool
  | .addressed .indirect _ => true
  | .addressed .indirectX _ => true
  | .addressed .indirectY _ => true
  | _ => false

def Line.isStraight : Line → Bool
  | .instruction ⟨mnemonic, operand⟩ =>
    Mnemonic.isStraight mnemonic && !Operand.isIndirect operand
  | _ => true

section Flags

variable {wiring : Wiring} {cpu : Cpu} {mnemonic : Mnemonic}

theorem take?_retell (byte : UInt8) (mnemonic : Mnemonic) (zero negative : Bool) :
    (cpu.retell zero negative).take? byte mnemonic = cpu.take? byte mnemonic := by
  cases mnemonic <;> rfl

theorem change?_retell (byte : UInt8) (mnemonic : Mnemonic) (zero negative : Bool) :
    change? (cpu.retell zero negative).flags byte mnemonic = change? cpu.flags byte mnemonic := by
  cases mnemonic <;> rfl

theorem effective?_retell (operand : Operand) (zero negative : Bool) :
    wiring.effective? (cpu.retell zero negative) operand = wiring.effective? cpu operand := by
  cases operand with
  | implied => rfl
  | addressed mode value => cases mode <;> rfl

theorem operand?_retell (operand : Operand) (zero negative : Bool) :
    wiring.operand? (cpu.retell zero negative) operand = wiring.operand? cpu operand := by
  cases operand with
  | implied => rfl
  | addressed mode value => cases mode <;> rfl

theorem implied?_retell (straight : Mnemonic.isStraight mnemonic = true)
    (pushes : mnemonic ≠ .pha) (pulls : mnemonic ≠ .pla) {after : Cpu}
    (ran : wiring.implied? cpu mnemonic = some after) (zero negative : Bool) :
    ∃ tellsZero tellsNegative, wiring.implied? (cpu.retell zero negative) mnemonic =
      some (after.retell tellsZero tellsNegative) := by
  cases mnemonic
  case pha => contradiction
  case pla => contradiction
  all_goals first
    | contradiction
    | (obtain rfl := Option.some.inj ran
       exact ⟨_, _, rfl⟩)

/-- No instruction of straight-line code depends on the flags for zero and negative. -/
theorem execute?_retell (straight : Mnemonic.isStraight mnemonic = true) {operand : Operand}
    (stackless : operand = .implied → mnemonic ≠ .pha ∧ mnemonic ≠ .pla) {after : Cpu}
    (ran : wiring.execute? ⟨mnemonic, operand⟩ cpu = some after) (zero negative : Bool) :
    ∃ tellsZero tellsNegative, wiring.execute? ⟨mnemonic, operand⟩ (cpu.retell zero negative) =
      some (after.retell tellsZero tellsNegative) := by
  cases operand with
  | implied =>
    obtain ⟨pushes, pulls⟩ := stackless rfl
    exact implied?_retell straight pushes pulls ran zero negative
  | addressed mode value =>
    rcases execute?_addressed_iff.mp ran with
      ⟨byte, address, stored, found, rfl⟩ |
      ⟨byte, result, flags, address, stored, loaded, changed, found, rfl⟩ |
      ⟨byte, stored, loaded, changed, taken⟩
    · refine ⟨zero, negative, execute?_addressed_iff.mpr (.inl ⟨byte, address, ?_, ?_, rfl⟩)⟩
      · rw [← stored]
        rfl
      · rw [effective?_retell, found]
    · refine ⟨flags.zero, flags.negative, execute?_addressed_iff.mpr (.inr (.inl
        ⟨byte, result, flags, address, ?_, ?_, ?_, ?_, rfl⟩))⟩
      · rw [← stored]
        rfl
      · rw [operand?_retell, loaded]
      · rw [change?_retell, changed]
      · rw [effective?_retell, found]
    · refine ⟨after.flags.zero, after.flags.negative, execute?_addressed_iff.mpr (.inr (.inr
        ⟨byte, ?_, ?_, ?_, ?_⟩))⟩
      · rw [← stored]
        rfl
      · rw [operand?_retell, loaded]
      · rw [change?_retell, changed]
      · rw [take?_retell, taken]
        rfl

theorem line?_of_stackless {operand : Operand}
    (stackless : operand = .implied → mnemonic ≠ .pha ∧ mnemonic ≠ .pla) (state : Apart) :
    wiring.line? state (.instruction ⟨mnemonic, operand⟩) =
      (wiring.execute? ⟨mnemonic, operand⟩ state.cpu).map fun cpu => { state with cpu } := by
  unfold Wiring.line?
  split <;> simp_all

theorem line?_retell {state after : Apart} {line : Line} (straight : Line.isStraight line = true)
    (ran : wiring.line? state line = some after) (zero negative : Bool) :
    ∃ tellsZero tellsNegative, wiring.line? (state.retell zero negative) line =
      some (after.retell tellsZero tellsNegative) := by
  cases line with
  | instruction content =>
    obtain ⟨mnemonic, operand⟩ := content
    by_cases pushes : mnemonic = .pha ∧ operand = .implied
    · obtain ⟨rfl, rfl⟩ := pushes
      obtain rfl := Option.some.inj ran
      exact ⟨zero, negative, rfl⟩
    by_cases pulls : mnemonic = .pla ∧ operand = .implied
    · obtain ⟨rfl, rfl⟩ := pulls
      obtain ⟨cpu, stack⟩ := state
      cases stack with
      | nil => contradiction
      | cons byte stack =>
        obtain rfl := Option.some.inj ran
        exact ⟨byte == 0, 0x80 ≤ byte, rfl⟩
    have stackless : operand = .implied → mnemonic ≠ .pha ∧ mnemonic ≠ .pla :=
      fun implied => ⟨fun same => pushes ⟨same, implied⟩, fun same => pulls ⟨same, implied⟩⟩
    have allowed := (Bool.and_eq_true_iff.mp straight).1
    rw [line?_of_stackless stackless] at ran ⊢
    obtain ⟨cpu, executed, rfl⟩ := Option.map_eq_some_iff.mp ran
    obtain ⟨tellsZero, tellsNegative, other⟩ :=
      execute?_retell allowed stackless executed zero negative
    exact ⟨tellsZero, tellsNegative, Option.map_eq_some_iff.mpr ⟨_, other, rfl⟩⟩
  | _ =>
    obtain rfl := Option.some.inj ran
    exact ⟨zero, negative, rfl⟩

end Flags

section Effects

variable {wiring : Wiring} {state after : Apart} {lines next : List Line}

theorem straight?_append (first second : List Line) :
    wiring.straight? (first ++ second) state =
      (wiring.straight? first state).bind (wiring.straight? second) :=
  List.foldlM_append

theorem straight?_retell (straight : ∀ line ∈ lines, Line.isStraight line = true)
    (ran : wiring.straight? lines state = some after) (zero negative : Bool) :
    ∃ tellsZero tellsNegative, wiring.straight? lines (state.retell zero negative) =
      some (after.retell tellsZero tellsNegative) := by
  induction lines generalizing state zero negative with
  | nil =>
    obtain rfl := Option.some.inj ran
    exact ⟨zero, negative, rfl⟩
  | cons line lines ih =>
    obtain ⟨between, first, rest⟩ := Option.bind_eq_some_iff.mp ran
    obtain ⟨tellsZero, tellsNegative, firstOther⟩ :=
      line?_retell (straight line List.mem_cons_self) first zero negative
    obtain ⟨lastZero, lastNegative, restOther⟩ :=
      ih (fun later member => straight later (List.mem_cons_of_mem _ member)) rest tellsZero
        tellsNegative
    exact ⟨lastZero, lastNegative, Option.bind_eq_some_iff.mpr ⟨_, firstOther, restOther⟩⟩

/-- Code that runs wherever other code does, to the same state but for two flags. -/
def Wiring.Replaces (wiring : Wiring) (second first : List Line) : Prop :=
  ∀ state after, wiring.straight? first state = some after →
    ∃ zero negative, wiring.straight? second state = some (after.retell zero negative)

namespace Wiring.Replaces

variable {first second third back : List Line}

theorem refl (wiring : Wiring) (lines : List Line) : wiring.Replaces lines lines :=
  fun _ after ran => ⟨after.cpu.flags.zero, after.cpu.flags.negative, ran⟩

theorem trans (last : wiring.Replaces third second) (earlier : wiring.Replaces second first) :
    wiring.Replaces third first := by
  intro state after ran
  obtain ⟨zero, negative, between⟩ := earlier state after ran
  obtain ⟨lastZero, lastNegative, ending⟩ := last state _ between
  exact ⟨lastZero, lastNegative, ending⟩

theorem inside (replaces : wiring.Replaces second first) (front : List Line)
    (straight : ∀ line ∈ back, Line.isStraight line = true) :
    wiring.Replaces (front ++ second ++ back) (front ++ first ++ back) := by
  intro state after ran
  rw [List.append_assoc, straight?_append] at ran
  obtain ⟨before, entered, ran⟩ := Option.bind_eq_some_iff.mp ran
  rw [straight?_append] at ran
  obtain ⟨between, inner, rest⟩ := Option.bind_eq_some_iff.mp ran
  obtain ⟨zero, negative, innerOther⟩ := replaces before between inner
  obtain ⟨lastZero, lastNegative, restOther⟩ := straight?_retell straight rest zero negative
  refine ⟨lastZero, lastNegative, ?_⟩
  rw [List.append_assoc, straight?_append, entered, Option.bind_some, straight?_append, innerOther,
    Option.bind_some, restOther]

end Wiring.Replaces

/-- The stack is used without an operand only. -/
theorem execute?_stack {mnemonic : Mnemonic} (stacked : mnemonic = .pha ∨ mnemonic = .pla)
    (mode : Asm.Mode) (value : Asm.Value) (cpu : Cpu) :
    wiring.execute? ⟨mnemonic, .addressed mode value⟩ cpu = none := by
  rcases stacked with rfl | rfl <;> simp [Wiring.execute?, Cpu.stored?, change?, Cpu.take?]

theorem implied_of_line? {mnemonic : Mnemonic} {operand : Operand}
    (stacked : mnemonic = .pha ∨ mnemonic = .pla)
    (ran : wiring.line? state (.instruction ⟨mnemonic, operand⟩) = some after) :
    operand = .implied := by
  cases operand with
  | implied => rfl
  | addressed mode value =>
    rw [line?_of_stackless (by simp), execute?_stack stacked] at ran
    contradiction

/-- A byte that is pushed and pulled again leaves the accumulator and the stack as they were. -/
theorem replaces_pushPull {push pull : Instruction} (pushes : push.mnemonic = .pha)
    (pulls : pull.mnemonic = .pla) :
    wiring.Replaces [] [.instruction push, .instruction pull] := by
  intro state after ran
  obtain ⟨_, operand⟩ := push
  obtain ⟨_, operand'⟩ := pull
  obtain rfl := pushes
  obtain rfl := pulls
  obtain ⟨pushed, first, rest⟩ := Option.bind_eq_some_iff.mp ran
  obtain ⟨pulled, second, last⟩ := Option.bind_eq_some_iff.mp rest
  obtain rfl := implied_of_line? (.inl rfl) first
  obtain rfl := implied_of_line? (.inr rfl) second
  obtain rfl := Option.some.inj first
  obtain rfl := Option.some.inj second
  obtain rfl := Option.some.inj last
  exact ⟨state.cpu.flags.zero, state.cpu.flags.negative, rfl⟩

/-- What was stored at a place that does not depend on memory is read from it again. -/
theorem operand?_write {operand : Operand} (plain : Operand.isIndirect operand = false) {cpu : Cpu}
    {address : UInt16} (found : wiring.effective? cpu operand = some address) (byte : UInt8) :
    wiring.operand? { cpu with cells := wiring.write cpu.cells address byte } operand =
      some byte := by
  have read : wiring.read (wiring.write cpu.cells address byte) address = byte :=
    Function.update_self ..
  cases operand with
  | implied => contradiction
  | addressed mode value =>
    cases mode
    case immediate => contradiction
    case indirect => contradiction
    case indirectX => contradiction
    case indirectY => contradiction
    all_goals
      obtain rfl := Option.some.inj found
      exact congrArg some read

/-- A byte that is stored and loaded again is still in the accumulator. -/
theorem replaces_storeLoad {operand : Operand} (plain : Operand.isIndirect operand = false) :
    wiring.Replaces [.instruction ⟨.sta, operand⟩]
      [.instruction ⟨.sta, operand⟩, .instruction ⟨.lda, operand⟩] := by
  intro state after ran
  obtain ⟨stored, first, rest⟩ := Option.bind_eq_some_iff.mp ran
  obtain ⟨loaded, second, last⟩ := Option.bind_eq_some_iff.mp rest
  obtain rfl := Option.some.inj last
  rw [line?_of_stackless (by simp)] at second
  have store := first
  rw [line?_of_stackless (by simp)] at store
  obtain ⟨cpu, executed, rfl⟩ := Option.map_eq_some_iff.mp store
  obtain ⟨reloaded, again, rfl⟩ := Option.map_eq_some_iff.mp second
  cases operand with
  | implied => contradiction
  | addressed mode value =>
    rcases execute?_addressed_iff.mp executed with
      ⟨byte, address, isStored, found, rfl⟩ | ⟨_, _, _, _, other, -⟩ | ⟨_, other, -⟩
    · obtain rfl := Option.some.inj isStored
      have held := operand?_write plain found state.cpu.a
      rcases execute?_addressed_iff.mp again with
        ⟨_, _, other, -⟩ | ⟨_, _, _, _, -, -, other, -⟩ | ⟨byte, -, read, -, taken⟩
      · contradiction
      · contradiction
      · obtain rfl := Option.some.inj (read.symm.trans held)
        obtain rfl := Option.some.inj taken
        refine ⟨state.cpu.flags.zero, state.cpu.flags.negative, ?_⟩
        exact Option.bind_eq_some_iff.mpr ⟨_, first, rfl⟩
    · contradiction
    · contradiction

/-- One step of rewriting keeps the effects of straight-line code. -/
theorem replaces_of_reduces (step : Reduces lines next)
    (straight : ∀ line ∈ lines, Line.isStraight line = true) : wiring.Replaces next lines := by
  cases step with
  | pushPull front back pushes pulls =>
    have later : ∀ line ∈ back, Line.isStraight line = true :=
      fun line member => straight line (by simp [member])
    have part : wiring.Replaces [] _ := replaces_pushPull pushes pulls
    simpa using part.inside front later
  | @storeLoad operand front back memory =>
    have later : ∀ line ∈ back, Line.isStraight line = true :=
      fun line member => straight line (by simp [member])
    have plain : Operand.isIndirect operand = false := by
      have store := straight (.instruction ⟨.sta, operand⟩) (by simp)
      simpa [Line.isStraight, Mnemonic.isStraight] using store
    have part : wiring.Replaces _ _ := replaces_storeLoad plain
    simpa using part.inside front later

theorem replaces_of_reductions (steps : Relation.ReflTransGen Reduces lines next)
    (straight : ∀ line ∈ lines, Line.isStraight line = true) :
    wiring.Replaces next lines ∧ ∀ line ∈ next, Line.isStraight line = true := by
  induction steps with
  | refl => exact ⟨.refl wiring lines, straight⟩
  | tail _ step ih =>
    obtain ⟨replaces, kept⟩ := ih
    exact ⟨(replaces_of_reduces step kept).trans replaces,
      fun line member => kept line (step.sublist.subset member)⟩

/-- Straight-line code that the peephole rules were applied to runs wherever it ran before, and
leaves the same registers, stack and memory, and the same flags but for zero and negative. -/
theorem straight_line_optimized (straight : ∀ line ∈ lines, Line.isStraight line = true)
    (ran : wiring.straight? lines state = some after) :
    ∃ zero negative, wiring.straight? (optimize lines) state =
      some (after.retell zero negative) :=
  (replaces_of_reductions (reduces_optimize lines) straight).1 state after ran

def tally : List Line :=
  [.immediate .ldx 2, .op .pla, .on .sta .indexedX (.symbol "Tally"),
    .on .lda .indexedX (.symbol "Tally"), .op .clc, .immediate .adc 0xFF, .label "Next",
    .immediate .ldy 1, .op .pha, .op .pla]

def tallied : Apart :=
  { cpu := { a := 0, x := 0, y := 0, s := 0xFF, flags := .ofByte 0, cells := fun _ => 0 }
    stack := [1, 5] }

/-- The sum is zero, which after the rules were applied the flag does not tell any more. -/
theorem straight_line_optimized_tally :
    (∀ line ∈ tally, Line.isStraight line = true) ∧ (optimize tally).length = 7 ∧
      ∃ after zero negative,
        (Wiring.console fun _ => 0x90).straight? tally tallied = some after ∧
        (Wiring.console fun _ => 0x90).straight? (optimize tally) tallied =
          some (after.retell zero negative) ∧
        after.cpu.a = 0 ∧ after.stack = [5] ∧ after.cpu.flags.zero = true ∧ zero = false := by
  have straight : ∀ line ∈ tally, Line.isStraight line = true := by decide
  have ran : ∃ after, (Wiring.console fun _ => 0x90).straight? tally tallied = some after ∧
      after.cpu.a = 0 ∧ after.stack = [5] ∧ after.cpu.flags.zero = true := ⟨_, rfl, rfl, rfl, rfl⟩
  obtain ⟨after, reached, sum, stack, tells⟩ := ran
  obtain ⟨zero, negative, other⟩ := straight_line_optimized straight reached
  have flag : ((Wiring.console fun _ => 0x90).straight? (optimize tally) tallied).map
      (·.cpu.flags.zero) = some false := rfl
  rw [other] at flag
  exact ⟨straight, rfl, after, zero, negative, reached, other, sum, stack, tells,
    Option.some.inj flag⟩

end Effects

end Cartridge.Machine
