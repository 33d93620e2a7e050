import Cartridge.Proofs.Fragments
import Cartridge.Proofs.Labels

/-!
How the code of an operation on two bytes computes.

The second operand is pulled into the temporary and the first stays in the accumulator. An addition
or a subtraction is one instruction then. A comparison sets the flags, by which conditional branches
go to the line that loads one or to the line that loads zero, where control also gets when none of
them is taken; both ways meet again at the line that pushes the result.
-/

namespace Cartridge.Machine

open Asm (Line Mnemonic Symbol definedLabels)
open Emit (Site)

section Operands

variable {frame : Frame} {cells : Cells} {bytes : List UInt8} {cpu : Cpu} {lines : List Line}
  {post : Cpu → Prop}

theorem addBinary_complement (first second : UInt8) :
    (addBinary first (~~~second) true).1 = first - second := by
  have bound := second.toNat_lt
  apply UInt8.toNat_inj.mp
  simp only [addBinary, Bool.toNat_true, UInt8.toNat_ofNat', UInt8.toNat_sub, UInt8.toNat_not,
    UInt8.size]
  omega

theorem runs_pullOperands (sound : frame.ClearOfTemporary) {first second : UInt8}
    (represents : Represents frame cells (bytes ++ [first] ++ [second]) cpu)
    (rest : ∀ next, Represents frame cells bytes next → next.a = first →
      frame.wiring.read next.cells (frame.wiring.address (Memory.temporary 0)) = second →
      frame.wiring.Runs lines next post) :
    frame.wiring.Runs (Emit.Site.pullOperands ++ lines) cpu post := by
  refine runs_pull represents fun next held pulled => ?_
  refine .cons (execute?_stores rfl (congrArg some pulled.a)) ?_
  refine runs_pull (held.writeTemporary sound second) fun last heldLast pulledLast => ?_
  refine rest last heldLast pulledLast.a ?_
  rw [pulledLast.cells]
  simp [Wiring.read, Wiring.write, Wiring.value]

/-- Two instructions that combine the accumulator with a byte. -/
def Computes (carry operation : Mnemonic) (combined : UInt8 → UInt8 → UInt8) : Prop :=
  ∀ (wiring : Wiring) (cpu : Cpu) (second : UInt8), cpu.flags.decimal = false →
    ∃ prepared after, wiring.implied? cpu carry = some prepared ∧ prepared.cells = cpu.cells ∧
      prepared.take? second operation = some after ∧ after.a = combined cpu.a second ∧
      after.cells = cpu.cells ∧ after.s = cpu.s ∧ after.flags.decimal = false

theorem runs_arithmetic (sound : frame.ClearOfTemporary) {first second : UInt8}
    {carry operation : Mnemonic} {combined : UInt8 → UInt8 → UInt8}
    (computes : Computes carry operation combined)
    (represents : Represents frame cells (bytes ++ [first] ++ [second]) cpu) :
    frame.wiring.Runs
      (Emit.Site.pullOperands ++ [.op carry, .direct operation (Memory.temporary 0), .op .pha]) cpu
      (Represents frame cells (bytes ++ [combined first second])) := by
  have room := represents.pull.room_below
  refine runs_pullOperands sound represents fun next held loaded temporary => ?_
  obtain ⟨prepared, after, prepares, unchanged, taken, sum, same, pointer, binary⟩ :=
    computes frame.wiring next second held.binary
  have executed : frame.wiring.execute?
      ⟨operation, .addressed .direct (.symbol (Memory.temporary 0))⟩ prepared = some after := by
    refine execute?_takes rfl ?_
    rw [unchanged, ← taken, ← temporary]
    rfl
  refine .cons prepares (.cons executed ?_)
  have ready := held.silent same pointer (binary.trans held.binary.symm)
  refine runs_push sound ready room fun last pushed _ _ => .nil ?_
  rwa [← loaded, ← sum]

theorem arithmetic_computes {opcode : Code.Opcode} {carry operation : Mnemonic}
    (kind : (opcode, carry, operation) ∈
      [(Code.Opcode.add, Mnemonic.clc, Mnemonic.adc), (.subtract, .sec, .sbc)]) :
    ∃ combined, Computes carry operation combined ∧ ∀ wiring site config operand,
      perform? wiring site config ⟨opcode, operand⟩ = config.combine? combined := by
  simp only [List.mem_cons, List.not_mem_nil, or_false, Prod.mk.injEq] at kind
  rcases kind with ⟨rfl, rfl, rfl⟩ | ⟨rfl, rfl, rfl⟩
  · refine ⟨(· + ·), fun wiring cpu second binary => ?_, fun _ _ _ _ => rfl⟩
    refine ⟨_, _, rfl, rfl, rfl, ?_, rfl, rfl, binary⟩
    simp [Cpu.add, Cpu.sum, binary, addBinary_clear]
  · refine ⟨(· - ·), fun wiring cpu second binary => ?_, fun _ _ _ _ => rfl⟩
    refine ⟨_, _, rfl, rfl, rfl, ?_, rfl, rfl, binary⟩
    simp [Cpu.subtract, Cpu.sum, binary, addBinary_complement]

theorem runs_compareOperands (sound : frame.ClearOfTemporary) {first second : UInt8}
    (represents : Represents frame cells (bytes ++ [first] ++ [second]) cpu) :
    frame.wiring.Runs (Emit.Site.pullOperands ++ [.direct .cmp (Memory.temporary 0)]) cpu
      fun after => Represents frame cells bytes after ∧
        after.flags.zero = (first == second) ∧ after.flags.carry = decide (second ≤ first) := by
  refine runs_pullOperands sound represents fun next held loaded temporary => ?_
  have compared : frame.wiring.execute?
      ⟨.cmp, .addressed .direct (.symbol (Memory.temporary 0))⟩ next =
        some (next.compare first second) := by
    refine execute?_takes rfl ?_
    rw [← loaded, ← temporary]
    rfl
  have difference : (first - second == 0) = (first == second) := by
    rw [Bool.eq_iff_iff, beq_iff_eq, beq_iff_eq]
    constructor <;> grind
  exact .cons compared (.nil ⟨held.silent rfl rfl rfl, difference, rfl⟩)

end Operands

/-- What branches to one of two places decide, where not to branch is to deny. -/
def Flags.verdict (flags : Flags) : List (Mnemonic × Bool) → Bool
  | [] => false
  | (branch, outcome) :: rest =>
    if flags.leaves? branch = some true then outcome else flags.verdict rest

section Branching

variable {wiring : Wiring} {code : List Line} {line : Nat} {cpu : Cpu}
  {branches : List (Mnemonic × Bool)}

theorem reaches_verdict {ifTrue ifFalse : Symbol} {atTrue atFalse : Nat}
    (conditional : ∀ branch ∈ branches, (cpu.flags.leaves? branch.1).isSome)
    (placed : LinesAt code line (branches.map fun (branch, outcome) =>
      Line.direct branch (if outcome then ifTrue else ifFalse)))
    (placeTrue : lineOf? code ifTrue = some atTrue)
    (placeFalse : lineOf? code ifFalse = some atFalse) (behind : line + branches.length = atFalse) :
    wiring.Reaches code ⟨line, cpu⟩
      ⟨if cpu.flags.verdict branches then atTrue else atFalse, cpu⟩ := by
  induction branches generalizing line with
  | nil =>
    obtain rfl : line = atFalse := behind
    exact .refl
  | cons first branches ih =>
    obtain ⟨branch, outcome⟩ := first
    obtain ⟨taken, leaves⟩ := Option.isSome_iff_exists.mp (conditional _ List.mem_cons_self)
    have place : lineOf? code (if outcome then ifTrue else ifFalse) =
        some (if outcome then atTrue else atFalse) := by
      cases outcome
      · exact placeFalse
      · exact placeTrue
    have step : wiring.step? code ⟨line, cpu⟩ = some _ := step?_branch placed.head leaves place
    cases taken with
    | true =>
      rw [Flags.verdict, if_pos leaves]
      exact .single step
    | false =>
      have stays : cpu.flags.leaves? branch ≠ some true := by simp [leaves]
      rw [Flags.verdict, if_neg stays]
      have later := fun other member => conditional other (List.mem_cons_of_mem _ member)
      rw [List.length_cons, ← Nat.succ_add_eq_add_succ] at behind
      exact (ih later placed.tail behind).head step

end Branching

/-- Both ways through the code of a comparison push their outcome and end behind it. -/
theorem reaches_outcome {frame : Frame} (sound : frame.ClearOfTemporary) {site : Site}
    {stem : String} {branches : List (Mnemonic × Bool)} {labels line : Nat} {code : List Line}
    (distinct : (definedLabels code).Nodup)
    (placed : LinesAt code line (site.outcomeLines stem branches labels)) {cells : Cells}
    {bytes : List UInt8} {cpu : Cpu} (represents : Represents frame cells bytes cpu)
    (room : bytes.length < frame.depth)
    (conditional : ∀ branch ∈ branches, (cpu.flags.leaves? branch.1).isSome) :
    ∃ after, frame.wiring.Reaches code ⟨line, cpu⟩
        ⟨line + (site.outcomeLines stem branches labels).length, after⟩ ∧
      Represents frame cells (bytes ++ [if cpu.flags.verdict branches then 1 else 0]) after := by
  have branching := placed.left
  have atFalse := placed.right
  rw [List.length_map] at atFalse
  have atTrue := atFalse.tail.tail.tail
  have atEnd := atTrue.tail.tail
  have total : line + (site.outcomeLines stem branches labels).length =
      line + branches.length + 7 := by
    rw [Site.outcomeLines, List.length_append, List.length_map]
    rfl
  rw [total]
  have decided : frame.wiring.Reaches code ⟨line, cpu⟩ _ :=
    reaches_verdict conditional branching (lineOf?_eq_some distinct atTrue.head)
      (lineOf?_eq_some distinct atFalse.head) rfl
  -- Both ways load their outcome and then push it at the last label.
  have finish : ∀ outcome : UInt8, ∃ after,
      frame.wiring.Reaches code ⟨line + branches.length + 5, cpu.loadA outcome⟩
        ⟨line + branches.length + 7, after⟩ ∧
      Represents frame cells (bytes ++ [outcome]) after := by
    intro outcome
    have loaded : Represents frame cells bytes (cpu.loadA outcome) := represents.silent rfl rfl rfl
    obtain ⟨after, ran, holds⟩ := runs_push sound loaded room fun after pushed _ _ => .nil pushed
    exact ⟨after, reaches_of_run? atEnd ran, holds⟩
  cases verdict : cpu.flags.verdict branches with
  | true =>
    rw [verdict] at decided
    obtain ⟨after, pushed, holds⟩ := finish 1
    have loaded : frame.wiring.Reaches code ⟨line + branches.length + 3, cpu⟩
        ⟨line + branches.length + 5, cpu.loadA 1⟩ :=
      reaches_of_run? (@LinesAt.left _ _ [_, _] _ atTrue) rfl
    exact ⟨after, decided.trans (loaded.trans pushed), holds⟩
  | false =>
    rw [verdict] at decided
    obtain ⟨after, pushed, holds⟩ := finish 0
    have loaded : frame.wiring.Reaches code ⟨line + branches.length, cpu⟩
        ⟨line + branches.length + 2, cpu.loadA 0⟩ :=
      reaches_of_run? (@LinesAt.left _ _ [_, _] _ atFalse) rfl
    have skips : frame.wiring.step? code ⟨line + branches.length + 2, cpu.loadA 0⟩ =
        some ⟨line + branches.length + 5, cpu.loadA 0⟩ :=
      step?_branch atFalse.tail.tail.head rfl (lineOf?_eq_some distinct atEnd.head)
    exact ⟨after, decided.trans (loaded.trans (pushed.head skips)), holds⟩

section Kinds

variable {flags : Flags} {first second : UInt8}

theorem verdict_greater (zero : flags.zero = (first == second))
    (carry : flags.carry = decide (second ≤ first)) :
    flags.verdict [(.beq, false), (.bcs, true)] = decide (second < first) := by
  simp only [Flags.verdict, Flags.leaves?, zero, carry]
  by_cases same : first = second
  · simp [same]
  · have strict : second ≤ first ↔ second < first := by
      rw [UInt8.le_iff_lt_or_eq, or_iff_left (Ne.symm same)]
    simp [same, strict]

theorem verdict_equal (zero : flags.zero = (first == second)) :
    flags.verdict [(.beq, true)] = decide (first = second) := by
  simp [Flags.verdict, Flags.leaves?, zero]

theorem verdict_less (carry : flags.carry = decide (second ≤ first)) :
    flags.verdict [(.bcc, true)] = decide (first < second) := by
  simp [Flags.verdict, Flags.leaves?, carry]

end Kinds

/-- Branches that decide by the flags of a comparison. -/
def Decides (branches : List (Mnemonic × Bool)) (combined : UInt8 → UInt8 → UInt8) : Prop :=
  ∀ (flags : Flags) (first second : UInt8), flags.zero = (first == second) →
    flags.carry = decide (second ≤ first) →
    (∀ branch ∈ branches, (flags.leaves? branch.1).isSome) ∧
      combined first second = if flags.verdict branches then 1 else 0

theorem compare_decides {opcode : Code.Opcode} {stem : String} {branches : List (Mnemonic × Bool)}
    (kind : (opcode, stem, branches) ∈
      [(Code.Opcode.compareGreater, "Cgt", [(Mnemonic.beq, false), (.bcs, true)]),
        (.compareEqual, "Ceq", [(.beq, true)]), (.compareLess, "Clt", [(.bcc, true)])]) :
    ∃ combined, Decides branches combined ∧ ∀ wiring site config operand,
      perform? wiring site config ⟨opcode, operand⟩ = config.combine? combined := by
  simp only [List.mem_cons, List.not_mem_nil, or_false, Prod.mk.injEq] at kind
  rcases kind with ⟨rfl, -, rfl⟩ | ⟨rfl, -, rfl⟩ | ⟨rfl, -, rfl⟩
  · refine ⟨fun first second => if second < first then 1 else 0, ?_, fun _ _ _ _ => rfl⟩
    intro flags first second zero carry
    exact ⟨by simp [Flags.leaves?], by simp [verdict_greater zero carry]⟩
  · refine ⟨fun first second => if first = second then 1 else 0, ?_, fun _ _ _ _ => rfl⟩
    intro flags first second zero carry
    exact ⟨by simp [Flags.leaves?], by simp [verdict_equal zero]⟩
  · refine ⟨fun first second => if first < second then 1 else 0, ?_, fun _ _ _ _ => rfl⟩
    intro flags first second zero carry
    exact ⟨by simp [Flags.leaves?], by simp [verdict_less carry]⟩

theorem reaches_of_runs {wiring : Wiring} {code lines : List Line} {line : Nat} {cpu : Cpu}
    {post : Cpu → Prop} (placed : LinesAt code line lines) (runs : wiring.Runs lines cpu post) :
    ∃ after, wiring.Reaches code ⟨line, cpu⟩ ⟨line + lines.length, after⟩ ∧ post after := by
  obtain ⟨after, ran, holds⟩ := runs
  exact ⟨after, reaches_of_run? placed ran, holds⟩

theorem reaches_compare {frame : Frame} (sound : frame.ClearOfTemporary) {site : Site}
    {stem : String} {branches : List (Mnemonic × Bool)} {combined : UInt8 → UInt8 → UInt8}
    (decides : Decides branches combined) {labels line : Nat} {code : List Line}
    (distinct : (definedLabels code).Nodup)
    (placed : LinesAt code line (Site.pullOperands ++ [.direct .cmp (Memory.temporary 0)] ++
      site.outcomeLines stem branches labels))
    {cells : Cells} {bytes : List UInt8} {cpu : Cpu} {first second : UInt8}
    (represents : Represents frame cells (bytes ++ [first] ++ [second]) cpu) :
    ∃ after, frame.wiring.Reaches code ⟨line, cpu⟩
        ⟨line + (Site.pullOperands ++ [Line.direct .cmp (Memory.temporary 0)] ++
          site.outcomeLines stem branches labels).length, after⟩ ∧
      Represents frame cells (bytes ++ [combined first second]) after := by
  have room := represents.pull.room_below
  obtain ⟨compared, reached, held, zero, carry⟩ :=
    reaches_of_runs placed.left (runs_compareOperands sound represents)
  obtain ⟨conditional, result⟩ := decides compared.flags first second zero carry
  obtain ⟨after, decided, holds⟩ :=
    reaches_outcome sound distinct placed.right held room conditional
  rw [List.length_append, ← Nat.add_assoc, result]
  exact ⟨after, reached.trans decided, holds⟩

end Cartridge.Machine
