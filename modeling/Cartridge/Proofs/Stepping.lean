import Cartridge.Proofs.Displacement

/-!
Steps of code with its calls.

A step is a line, or a whole call that comes back. What surrounds code is a parameter: the stack
that it may use, and what its calls do. Steps of code that pulls what it has pushed are the same at
two levels of the stack, and so are whole runs, if the calls are.
-/

namespace Cartridge.Machine

open Asm (Instruction Lifts Line Mnemonic Rises Symbol holdsAt)

inductive Takes (step : State → State → Prop) (start : State) : Nat → State → Prop
  | start : Takes step start 0 start
  | next {steps : Nat} {state after : State} (run : Takes step start steps state)
    (stepped : step state after) : Takes step start (steps + 1) after

section Runs

variable {step other : State → State → Prop} {start after : State} {steps : Nat}

theorem Takes.trans {middle : State} {more : Nat} (run : Takes step start steps middle)
    (rest : Takes step middle more after) : Takes step start (steps + more) after := by
  induction rest with
  | start => exact run
  | next _ stepped ih => exact ih.next stepped

/-- Steps that are taken alike make runs that are. -/
theorem Takes.simulate {related : State → State → Prop}
    (simulates : ∀ state counterpart after, related state counterpart → step state after →
      ∃ next, other counterpart next ∧ related after next)
    {begin : State} (begins : related start begin) (run : Takes step start steps after) :
    ∃ counterpart, Takes other begin steps counterpart ∧ related after counterpart := by
  induction run with
  | start => exact ⟨begin, .start, begins⟩
  | next _ stepped ih =>
    obtain ⟨counterpart, ran, here⟩ := ih
    obtain ⟨next, steppedOther, there⟩ := simulates _ _ _ here stepped
    exact ⟨next, ran.next steppedOther, there⟩

end Runs

/-- Some lines of a code that is entered at the first of them, and the words that calls leave on the
stack there. -/
structure CodePart where
  code : List Line
  first : Nat
  length : Nat
  words : Nat → UInt16

namespace CodePart

def whole (code : List Line) (words : Nat → UInt16) : CodePart :=
  { code, first := 0, length := code.length, words }

def holdsAt (part : CodePart) (n : Nat) : Bool :=
  Asm.holdsAt (part.code.drop part.first) (n - part.first)

end CodePart

/-- What code runs in: the stack that it may use, and what its calls do with a word to return to and
within a limit of the stack. -/
structure Surroundings where
  frame : Frame
  calls : Symbol → UInt16 → Nat → Cpu → Cpu → Prop

namespace Surroundings

variable {around : Surroundings} {part : CodePart} {limit n : Nat} {cpu : Cpu} {after : State}

/-- One line of a part. A call comes back at once, and every instruction that goes on is careful
with the stack. -/
inductive Steps (around : Surroundings) (part : CodePart) (limit : Nat) : State → State → Prop
  | moved {state after : State} (low : part.first ≤ state.line)
    (high : state.line < part.first + part.length)
    (stepped : around.frame.wiring.step? part.code state = some after)
    (careful : ∀ instruction next, part.code[state.line]? = some (.instruction instruction) →
      around.frame.wiring.execute? instruction state.cpu = some next →
      around.frame.Careful limit (part.holdsAt state.line) instruction state.cpu) :
    Steps around part limit state after
  | called {line : Nat} {symbol : Symbol} {before after : Cpu} (low : part.first ≤ line)
    (high : line < part.first + part.length) (found : part.code[line]? = some (.direct .jsr symbol))
    (ran : around.calls symbol (part.words line) limit before after) :
    Steps around part limit ⟨line, before⟩ ⟨line + 1, after⟩

/-- The ways from a line, where symbols have their lines in the code. -/
inductive Way (around : Surroundings) (part : CodePart) (limit n : Nat) (cpu : Cpu) :
    Line → State → Prop
  | passed {line : Line} (silent : line.isInstruction = false) :
    Way around part limit n cpu line ⟨n + 1, cpu⟩
  | jumped {mnemonic : Mnemonic} {symbol : Symbol} {target : Nat} (leaves : Bool)
    (jumps : cpu.flags.leaves? mnemonic = some leaves)
    (goes : (if leaves then lineOf? part.code symbol else some (n + 1)) = some target) :
    Way around part limit n cpu (.direct mnemonic symbol) ⟨target, cpu⟩
  | executed {instruction : Instruction} {next : Cpu}
    (stays : cpu.flags.leaves? instruction.mnemonic = none)
    (ran : around.frame.wiring.execute? instruction cpu = some next)
    (careful : around.frame.Careful limit (part.holdsAt n) instruction cpu) :
    Way around part limit n cpu (.instruction instruction) ⟨n + 1, next⟩
  | called {symbol : Symbol} {next : Cpu}
    (ran : around.calls symbol (part.words n) limit cpu next) :
    Way around part limit n cpu (.direct .jsr symbol) ⟨n + 1, next⟩

theorem way_of_step? {line : Line} (found : part.code[n]? = some line)
    (stepped : around.frame.wiring.step? part.code ⟨n, cpu⟩ = some after)
    (careful : ∀ instruction next, line = .instruction instruction →
      around.frame.wiring.execute? instruction cpu = some next →
      around.frame.Careful limit (part.holdsAt n) instruction cpu) :
    around.Way part limit n cpu line after := by
  simp only [Wiring.step?, found] at stepped
  cases line with
  | instruction instruction =>
    obtain ⟨mnemonic, operand⟩ := instruction
    simp only at stepped
    split at stepped
    next label leaves =>
      obtain ⟨target, goes, rfl⟩ := Option.map_eq_some_iff.mp stepped
      exact .jumped true leaves goes
    next leaves =>
      obtain rfl := Option.some.inj stepped
      exact .jumped false leaves rfl
    next => contradiction
    next stays =>
      obtain ⟨next, ran, rfl⟩ := Option.map_eq_some_iff.mp stepped
      exact .executed stays ran (careful _ next rfl ran)
  | _ =>
    obtain rfl := Option.some.inj stepped
    exact .passed rfl

theorem steps_iff :
    around.Steps part limit ⟨n, cpu⟩ after ↔
      part.first ≤ n ∧ n < part.first + part.length ∧
        ∃ line, part.code[n]? = some line ∧ around.Way part limit n cpu line after := by
  constructor
  · intro stepped
    cases stepped with
    | called low high found ran => exact ⟨low, high, _, found, .called ran⟩
    | moved low high stepped careful =>
      cases found : part.code[n]? with
      | none => simp [Wiring.step?, found] at stepped
      | some line =>
        refine ⟨low, high, line, rfl, way_of_step? found stepped ?_⟩
        rintro instruction next rfl ran
        exact careful instruction next found ran
  · rintro ⟨low, high, line, found, way⟩
    cases way with
    | passed silent =>
      refine .moved low high ?_ ?_
      · cases line <;> simp_all [Wiring.step?, Line.isInstruction]
      · intro instruction next same _
        rw [Option.some.inj (found.symm.trans same)] at silent
        contradiction
    | @jumped mnemonic symbol target leaves jumps goes =>
      refine .moved low high ?_ ?_
      · cases leaves with
        | true =>
          have place : lineOf? part.code symbol = some target := goes
          simp [Wiring.step?, found, Line.direct, Line.on, jumps, place]
        | false =>
          obtain rfl := Option.some.inj goes
          simp [Wiring.step?, found, Line.direct, Line.on, jumps]
      · intro instruction next same ran
        obtain rfl := Line.instruction.inj (Option.some.inj (found.symm.trans same))
        rw [execute?_of_leaves jumps] at ran
        contradiction
    | @executed instruction next stays ran careful =>
      refine .moved low high ?_ ?_
      · simp [Wiring.step?, found, stays, ran]
      · intro other _ same _
        obtain rfl := Line.instruction.inj (Option.some.inj (found.symm.trans same))
        exact careful
    | called ran => exact .called low high found ran

/-- A step that can be computed, as its calls can. -/
def next? (around : Surroundings) (call? : Symbol → UInt16 → Nat → Cpu → Option Cpu)
    (part : CodePart) (limit : Nat) (state : State) : Option State :=
  if part.first ≤ state.line ∧ state.line < part.first + part.length then
    match part.code[state.line]? with
    | some (.instruction ⟨.jsr, .addressed .direct (.symbol symbol)⟩) =>
      (call? symbol (part.words state.line) limit state.cpu).map fun cpu => ⟨state.line + 1, cpu⟩
    | some (.instruction instruction) =>
      if around.frame.Careful limit (part.holdsAt state.line) instruction state.cpu then
        around.frame.wiring.step? part.code state
      else none
    | _ => around.frame.wiring.step? part.code state
  else none

def finish? (around : Surroundings) (call? : Symbol → UInt16 → Nat → Cpu → Option Cpu)
    (part : CodePart) (limit : Nat) : Nat → State → Option State
  | 0, _ => none
  | fuel + 1, state =>
    if part.code[state.line]? = some (.op .rts) then some state
    else (around.next? call? part limit state).bind (around.finish? call? part limit fuel)

section Computed

variable {call? : Symbol → UInt16 → Nat → Cpu → Option Cpu}
  (sound : ∀ symbol word limit before after, call? symbol word limit before = some after →
    around.calls symbol word limit before after)

include sound

theorem steps_of_next? {state : State} (moved : around.next? call? part limit state = some after) :
    around.Steps part limit state after := by
  unfold next? at moved
  split at moved
  next inside =>
    split at moved
    next symbol found =>
      obtain ⟨cpu, ran, rfl⟩ := Option.map_eq_some_iff.mp moved
      exact .called inside.1 inside.2 found (sound _ _ _ _ _ ran)
    next instruction _ found =>
      split at moved
      next careful =>
        refine .moved inside.1 inside.2 moved ?_
        intro other _ same _
        obtain rfl := Line.instruction.inj (Option.some.inj (found.symm.trans same))
        exact careful
      next => contradiction
    next plain =>
      refine .moved inside.1 inside.2 moved ?_
      exact fun instruction _ same _ => absurd same (plain instruction)
  next => contradiction

theorem takes_of_finish? {fuel : Nat} {start : State}
    (ran : around.finish? call? part limit fuel start = some after) :
    part.code[after.line]? = some (.op .rts) ∧
      ∃ steps, Takes (around.Steps part limit) start steps after := by
  induction fuel generalizing start with
  | zero => contradiction
  | succ fuel ih =>
    unfold finish? at ran
    split at ran
    next returns =>
      obtain rfl := Option.some.inj ran
      exact ⟨returns, 0, .start⟩
    next =>
      obtain ⟨state, moved, rest⟩ := Option.bind_eq_some_iff.mp ran
      obtain ⟨returns, steps, later⟩ := ih rest
      have first : Takes (around.Steps part limit) start 1 state :=
        Takes.start.next (steps_of_next? sound moved)
      exact ⟨returns, 1 + steps, first.trans later⟩

end Computed

/-- Calls that do the same wherever the stack of their caller begins, whatever they return to. -/
def Oblivious (around : Surroundings) (called : Symbol → Prop) : Prop :=
  ∀ symbol, called symbol → ∀ word wordOther taken other bytes limit limitOther first second after,
    Balanced around.frame taken other limit limitOther →
    Alike around.frame taken other bytes false first second →
    around.calls symbol word limit first after →
    ∃ counterpart, around.calls symbol wordOther limitOther second counterpart ∧
      Alike around.frame taken other bytes false after counterpart

end Surroundings

section Levels

variable {around : Surroundings} {called : Symbol → Prop} {arrives : Symbol → Nat → Prop}
  {code : List Line} {words wordsOther : Nat → UInt16} {taken other : List UInt8}
  {limit limitOther n : Nat} {line : Line}

/-- Two processors at the same line, with as many bytes pushed as the code relies on from there. -/
def AlikeAt (frame : Frame) (arrives : Symbol → Nat → Prop) (taken other : List UInt8)
    (code : List Line) (state counterpart : State) : Prop :=
  counterpart.line = state.line ∧ ∃ bytes k, k ≤ bytes.length ∧
    Alike frame taken other bytes (holdsAt code state.line) state.cpu counterpart.cpu ∧
    Rises arrives (holdsAt code state.line) k (code.drop state.line) 0

theorem leaves?_eq_none {flags other : Flags} {mnemonic : Mnemonic}
    (stays : flags.leaves? mnemonic = none) : other.leaves? mnemonic = none := by
  cases mnemonic <;> first | rfl | contradiction

theorem Surroundings.Way.displaced {first second : Cpu} {after : State}
    (clear : around.frame.Clear) (balanced : Balanced around.frame taken other limit limitOther)
    (oblivious : around.Oblivious called) (tidy : Rises arrives false 0 code 0)
    (known : ∀ symbol, .direct .jsr symbol ∈ code → called symbol) (found : code[n]? = some line)
    (alike : AlikeAt around.frame arrives taken other code ⟨n, first⟩ ⟨n, second⟩)
    (way : around.Way (.whole code words) limit n first line after) :
    ∃ counterpart,
      around.Way (.whole code wordsOther) limitOther n second line ⟨after.line, counterpart⟩ ∧
      AlikeAt around.frame arrives taken other code after ⟨after.line, counterpart⟩ := by
  obtain ⟨-, bytes, k, enough, alike, rises⟩ := alike
  have inside := (List.getElem?_eq_some_iff.mp found).1
  have next := Asm.holdsAt_succ found
  dsimp only at alike rises
  rw [List.drop_eq_getElem_cons inside, (List.getElem?_eq_some_iff.mp found).2] at rises
  generalize heldAt : holdsAt code n = held at alike rises next
  cases rises with
  | @cons _ _ _ m _ _ lifts rest =>
    cases way with
    | passed silent =>
      obtain ⟨rfl, still, falls⟩ := lifts.passes silent
      refine ⟨second, .passed silent, rfl, bytes, m, falls.trans enough, ?_, ?_⟩
      · rw [next, still]
        exact alike
      · rw [next]
        exact rest
    | @jumped mnemonic symbol target leaves jumps goes =>
      obtain ⟨rfl, ⟨low, there, below⟩, falls⟩ := lifts.jumps (isJump_of_leaves jumps)
      have flags : second.flags = first.flags := alike.registers.2.2.2
      refine ⟨second, .jumped leaves (by rw [flags, jumps]) goes, rfl, bytes, ?_⟩
      cases leaves with
      | true =>
        -- A jump goes to a label, where no more is relied on than it brings along.
        have label := label_of_lineOf? (show lineOf? code symbol = some target from goes)
        obtain ⟨_, landing⟩ := tidy.drop target
        rw [List.drop_eq_getElem_cons (List.getElem?_eq_some_iff.mp label).1,
          (List.getElem?_eq_some_iff.mp label).2] at landing
        obtain ⟨free, lands⟩ := landing.lands there
        refine ⟨low, below.trans enough, ?_, ?_⟩
        · rw [free]
          exact alike
        · rw [free, List.drop_eq_getElem_cons (List.getElem?_eq_some_iff.mp label).1,
            (List.getElem?_eq_some_iff.mp label).2]
          exact lands
      | false =>
        obtain rfl := Option.some.inj goes
        have falls := falls (by rintro rfl; simp [Flags.leaves?] at jumps)
        refine ⟨m, falls.trans enough, ?_, ?_⟩
        · rw [next, Line.holds_of_isJump (isJump_of_leaves jumps)]
          exact alike
        · rw [next]
          exact rest
    | @executed instruction result stays ran careful =>
      have here : (CodePart.whole code words).holdsAt n = held := heldAt
      rw [here] at careful
      obtain ⟨more, counterpart, ranOther, there, high⟩ :=
        alike.execute clear balanced lifts enough careful ran
      refine ⟨counterpart, .executed (leaves?_eq_none stays) ranOther ?_, rfl, more, m, high, ?_,
        ?_⟩
      · have hereOther : (CodePart.whole code wordsOther).holdsAt n = held := heldAt
        rw [hereOther]
        exact alike.careful balanced careful
      · rw [next]
        exact there
      · rw [next]
        exact rest
    | @called symbol result ran =>
      obtain ⟨rfl, falls⟩ := lifts.calls
      obtain ⟨counterpart, ranOther, there⟩ := oblivious symbol
        (known symbol (List.mem_of_getElem? found)) _ (wordsOther n) _ _ _ _ _ _ _ _ balanced alike
        ran
      refine ⟨counterpart, .called ranOther, rfl, bytes, m, falls.trans enough, ?_, ?_⟩
      · rw [next]
        exact there
      · rw [next]
        exact rest

theorem Takes.displaced {start begin after : State} (clear : around.frame.Clear)
    (balanced : Balanced around.frame taken other limit limitOther)
    (oblivious : around.Oblivious called) (tidy : Rises arrives false 0 code 0)
    (known : ∀ symbol, .direct .jsr symbol ∈ code → called symbol)
    (begins : AlikeAt around.frame arrives taken other code start begin)
    (wordsOther : Nat → UInt16) {steps : Nat}
    (run : Takes (around.Steps (.whole code words) limit) start steps after) :
    ∃ counterpart,
      Takes (around.Steps (.whole code wordsOther) limitOther) begin steps counterpart ∧
      AlikeAt around.frame arrives taken other code after counterpart := by
  refine run.simulate ?_ begins
  rintro ⟨n, first⟩ ⟨m, second⟩ next ⟨same, alike⟩ stepped
  obtain rfl : m = n := same
  obtain ⟨low, high, line, found, way⟩ := Surroundings.steps_iff.mp stepped
  have here : AlikeAt around.frame arrives taken other code ⟨m, first⟩ ⟨m, second⟩ := ⟨rfl, alike⟩
  obtain ⟨counterpart, wayOther, there⟩ :=
    way.displaced clear balanced oblivious tidy known found here
  exact ⟨⟨next.line, counterpart⟩, Surroundings.steps_iff.mpr ⟨low, high, line, found, wayOther⟩,
    there⟩

end Levels

end Cartridge.Machine
