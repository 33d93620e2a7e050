import Cartridge.Proofs.Distinct
import Cartridge.Proofs.ZeroFlag

/-!
Branches on the zero flag in runs of a whole listing.

Runs start at the entry point and go through library routines as well as through compiled code. The
console may change memory between any two lines. A run is watched for whether the flag can be
relied upon: a line of compiled code that sets it from the accumulator settles it, as does a sum
unless digits are added, and what other lines leave behind counts as it is.
-/

namespace Cartridge.Machine

open Asm (Instruction Line Mnemonic Operand Symbol)

/-- Whether the zero flag tells that the accumulator is zero. -/
def Cpu.tells (cpu : Cpu) : Bool :=
  cpu.flags.zero == (cpu.a == 0)

section Execution

variable {wiring : Wiring} {instruction : Instruction} {cpu after : Cpu}

theorem execute?_addressed {mnemonic : Mnemonic} {mode : Asm.Mode} {value : Asm.Value}
    (executed : wiring.execute? ⟨mnemonic, .addressed mode value⟩ cpu = some after) :
    (∃ byte cells, cpu.stored? mnemonic = some byte ∧ after = { cpu with cells }) ∨
    (∃ byte result flags cells, change? cpu.flags byte mnemonic = some (result, flags) ∧
      after = { cpu with flags, cells }) ∨
    ∃ byte, cpu.take? byte mnemonic = some after := by
  rcases execute?_addressed_iff.mp executed with
    ⟨byte, address, stored, -, made⟩ | ⟨byte, result, flags, address, -, -, changed, -, made⟩ |
    ⟨byte, -, -, -, taken⟩
  · exact .inl ⟨byte, _, stored, made⟩
  · exact .inr (.inl ⟨byte, result, flags, _, changed, made⟩)
  · exact .inr (.inr ⟨byte, taken⟩)

theorem tells_of_settles (executed : wiring.execute? instruction cpu = some after)
    (settles : instruction.mnemonic.settles = true) : after.tells = true := by
  obtain ⟨mnemonic, operand⟩ := instruction
  cases operand with
  | implied =>
    cases mnemonic <;>
      simp_all [Wiring.execute?, Wiring.implied?, change?, Mnemonic.settles] <;>
      subst executed <;> simp [Cpu.tells, Cpu.loadA, Cpu.loadX, Cpu.loadY, Flags.mark]
  | addressed mode value =>
    rcases execute?_addressed executed with
      ⟨byte, cells, stored, -⟩ | ⟨byte, result, flags, cells, changed, -⟩ | ⟨byte, taken⟩
    · cases mnemonic <;> simp_all [Cpu.stored?, Mnemonic.settles]
    · cases mnemonic <;> simp_all [change?, Mnemonic.settles]
    · cases mnemonic <;> simp_all [Cpu.take?, Mnemonic.settles] <;> subst taken <;>
        simp [Cpu.tells, Cpu.loadA, Flags.mark]

theorem tells_of_sums (executed : wiring.execute? instruction cpu = some after)
    (sums : instruction.mnemonic.sums = true) (binary : after.flags.decimal = false) :
    after.tells = true := by
  obtain ⟨mnemonic, operand⟩ := instruction
  cases operand with
  | implied =>
    cases mnemonic <;> simp_all [Wiring.execute?, Wiring.implied?, change?, Mnemonic.sums]
  | addressed mode value =>
    rcases execute?_addressed executed with
      ⟨byte, cells, stored, -⟩ | ⟨byte, result, flags, cells, changed, -⟩ | ⟨byte, taken⟩
    · cases mnemonic <;> simp_all [Cpu.stored?, Mnemonic.sums]
    · cases mnemonic <;> simp_all [change?, Mnemonic.sums]
    · cases mnemonic with
      | adc =>
        obtain rfl := Option.some.inj taken
        cases before : cpu.flags.decimal <;> simp_all [Cpu.tells, Cpu.add, Cpu.sum]
      | sbc =>
        obtain rfl := Option.some.inj taken
        cases before : cpu.flags.decimal <;> simp_all [Cpu.tells, Cpu.subtract, Cpu.sum]
      | _ => contradiction

theorem tells_of_isQuiet (executed : wiring.execute? instruction cpu = some after)
    (quiet : instruction.mnemonic.isQuiet = true) : after.tells = cpu.tells := by
  obtain ⟨mnemonic, operand⟩ := instruction
  cases operand with
  | implied =>
    cases mnemonic <;>
      simp_all [Wiring.execute?, Wiring.implied?, change?, Mnemonic.isQuiet] <;>
      subst executed <;> rfl
  | addressed mode value =>
    rcases execute?_addressed executed with
      ⟨byte, cells, -, rfl⟩ | ⟨byte, result, flags, cells, changed, -⟩ | ⟨byte, taken⟩
    · rfl
    · cases mnemonic <;> simp_all [change?, Mnemonic.isQuiet]
    · cases mnemonic <;> simp_all [Cpu.take?, Mnemonic.isQuiet]

end Execution

def Wiring.pulled (wiring : Wiring) (cpu : Cpu) : UInt16 :=
  (wiring.top cpu).toUInt16 + (wiring.top { cpu with s := cpu.s + 1 }).toUInt16 * 0x100

def Wiring.pushWord (wiring : Wiring) (cpu : Cpu) (word : UInt16) : Cpu :=
  wiring.push (wiring.push cpu (word >>> 8).toUInt8) word.toUInt8

/-- The line behind the call that leaves a word for its return. -/
def returnLine? (code : List Line) (place : Nat → UInt16) (word : UInt16) : Option Nat :=
  ((List.range code.length).find? fun line =>
    code[line]?.bind Line.mnemonic? == some .jsr && place line == word).map (· + 1)

/-- One line of a whole listing, where calls leave the place of their line on the stack and tables
cannot be run. -/
def Wiring.next? (wiring : Wiring) (place : Nat → UInt16) (code : List Line) (state : State) :
    Option State :=
  match code[state.line]? with
  | some (.directive _) => none
  | some (.instruction ⟨.jsr, .addressed .direct (.symbol label)⟩) =>
    (lineOf? code label).map fun line =>
      { line, cpu := wiring.pushWord state.cpu (place state.line) }
  | some (.instruction ⟨.rts, .implied⟩) =>
    (returnLine? code place (wiring.pulled state.cpu)).map fun line =>
      { line, cpu := { state.cpu with s := state.cpu.s + 2 } }
  | _ => wiring.step? code state

/-- The ways from one line to another. -/
inductive Moved (wiring : Wiring) (code : List Line) (state : State) (line : Line) : State → Prop
  | passed (silent : line.mnemonic? = none) :
    Moved wiring code state line ⟨state.line + 1, state.cpu⟩
  | jumped {mnemonic symbol target} (same : line = .direct mnemonic symbol)
    (jumps : mnemonic.isJump = true) (place : lineOf? code symbol = some target) :
    Moved wiring code state line ⟨target, state.cpu⟩
  | stayed {mnemonic} (found : line.mnemonic? = some mnemonic) (jumps : mnemonic.isJump = true) :
    Moved wiring code state line ⟨state.line + 1, state.cpu⟩
  | called {symbol target cpu} (same : line = .direct .jsr symbol)
    (place : lineOf? code symbol = some target) (tells : cpu.tells = state.cpu.tells) :
    Moved wiring code state line ⟨target, cpu⟩
  | returned {back cpu} (found : line.mnemonic? = some .rts)
    (call : code[back]?.bind Line.mnemonic? = some .jsr) (tells : cpu.tells = state.cpu.tells) :
    Moved wiring code state line ⟨back + 1, cpu⟩
  | executed {instruction cpu} (same : line = .instruction instruction)
    (ran : wiring.execute? instruction state.cpu = some cpu) :
    Moved wiring code state line ⟨state.line + 1, cpu⟩

section Moving

variable {wiring : Wiring} {place : Nat → UInt16} {code : List Line} {state after : State}
  {line : Line}

theorem isJump_of_leaves {flags : Flags} {mnemonic : Mnemonic} {taken : Bool}
    (leaves : flags.leaves? mnemonic = some taken) : mnemonic.isJump = true := by
  cases mnemonic <;> simp_all [Flags.leaves?, Mnemonic.isJump]

theorem moved_of_step? (found : code[state.line]? = some line)
    (stepped : wiring.step? code state = some after) : Moved wiring code state line after := by
  simp only [Wiring.step?, found] at stepped
  cases line with
  | instruction instruction =>
    obtain ⟨mnemonic, operand⟩ := instruction
    simp only at stepped
    split at stepped
    next label leaves =>
      obtain ⟨target, place, rfl⟩ := Option.map_eq_some_iff.mp stepped
      exact .jumped rfl (isJump_of_leaves leaves) place
    next leaves =>
      obtain rfl := Option.some.inj stepped
      exact .stayed rfl (isJump_of_leaves leaves)
    next => contradiction
    next =>
      obtain ⟨cpu, ran, rfl⟩ := Option.map_eq_some_iff.mp stepped
      exact .executed rfl ran
  | _ =>
    obtain rfl := Option.some.inj stepped
    exact .passed rfl

theorem call_of_returnLine? {word : UInt16} {target : Nat}
    (found : returnLine? code place word = some target) :
    ∃ back, target = back + 1 ∧ code[back]?.bind Line.mnemonic? = some .jsr := by
  obtain ⟨back, call, rfl⟩ := Option.map_eq_some_iff.mp found
  have matched := List.find?_some call
  exact ⟨back, rfl, beq_iff_eq.mp (Bool.and_eq_true_iff.mp matched).1⟩

theorem moved_of_next? (found : code[state.line]? = some line)
    (moved : wiring.next? place code state = some after) : Moved wiring code state line after := by
  unfold Wiring.next? at moved
  split at moved
  next => contradiction
  next label same =>
    obtain rfl := Option.some.inj (found.symm.trans same)
    obtain ⟨target, place, rfl⟩ := Option.map_eq_some_iff.mp moved
    exact .called rfl place rfl
  next same =>
    obtain rfl := Option.some.inj (found.symm.trans same)
    obtain ⟨target, returns, rfl⟩ := Option.map_eq_some_iff.mp moved
    obtain ⟨back, rfl, call⟩ := call_of_returnLine? returns
    exact .returned rfl call rfl
  next => exact moved_of_step? found moved

theorem label_of_lineOf? {symbol : Symbol} {target : Nat}
    (place : lineOf? code symbol = some target) : code[target]? = some (.label symbol) := by
  obtain ⟨inside, same, -⟩ := List.findIdx?_eq_some_iff_getElem.mp place
  rw [List.getElem?_eq_getElem inside, beq_iff_eq.mp same]

end Moving

/-- The lines of compiled code among those of a listing, with blanks in the place of all others. -/
def Masks (own code : List Line) : Prop :=
  List.Forall₂ (fun shown line => shown = line ∨ shown = .blank) own code

theorem Masks.append {own code more lines : List Line} (masks : Masks own code)
    (rest : Masks more lines) : Masks (own ++ more) (code ++ lines) :=
  List.rel_append masks rest

/-- Whether the flag is settled behind a line: compiled code settles it by setting it from the
accumulator, a sum does so if no digits are added, and behind all lines that are not compiled it
counts whether it tells the accumulator. -/
def settledAfter (own : List Line) (line : Nat) (settled : Bool) (cpu : Cpu) : Bool :=
  match own[line]? with
  | none => cpu.tells
  | some .blank => cpu.tells
  | some line => if line.sums then !cpu.flags.decimal else settled || line.settles

/-- The states that can be reached from the start of a listing, with whether the zero flag is
settled. Before each line the console may have changed any cell. -/
inductive Watched (wiring : Wiring) (place : Nat → UInt16) (code own : List Line)
    (start : Symbol) : State → Bool → Prop
  | reset {line cpu} (found : lineOf? code start = some line) :
    Watched wiring place code own start ⟨line, cpu⟩ cpu.tells
  | moved {state settled after} (before : Watched wiring place code own start state settled)
    (cells : Cells)
    (step : wiring.next? place code ⟨state.line, { state.cpu with cells }⟩ = some after) :
    Watched wiring place code own start after (settledAfter own state.line settled after.cpu)

/-- A watched run of so many lines, in which the console changes nothing. -/
def Wiring.watch? (wiring : Wiring) (place : Nat → UInt16) (code own : List Line) :
    Nat → State → Bool → Option (State × Bool)
  | 0, state, settled => some (state, settled)
  | steps + 1, state, settled =>
    (wiring.next? place code state).bind fun after =>
      wiring.watch? place code own steps after (settledAfter own state.line settled after.cpu)

theorem Watched.watch {wiring : Wiring} {place : Nat → UInt16} {code own : List Line}
    {start : Symbol} {steps : Nat} {state after : State} {settled known : Bool}
    (watched : Watched wiring place code own start state settled)
    (ran : wiring.watch? place code own steps state settled = some (after, known)) :
    Watched wiring place code own start after known := by
  induction steps generalizing state settled with
  | zero =>
    obtain ⟨rfl, rfl⟩ := Prod.mk.inj (Option.some.inj ran)
    exact watched
  | succ steps ih =>
    obtain ⟨next, step, rest⟩ := Option.bind_eq_some_iff.mp ran
    exact ih (watched.moved state.cpu.cells step) rest

open Emit (Respects LandsIn Sense Steady)

def senseAt (own : List Line) (n : Nat) : Sense :=
  (own.take n).foldl Sense.next .accumulator

/-- Lines in front of which the flag does not matter. -/
def Exempt (own : List Line) (n : Nat) : Prop :=
  (∃ line, own[n]? = some line ∧ line.settles = true) ∨
    ∃ symbol line, own[n]? = some (.label symbol) ∧ own[n + 1]? = some line ∧ line.settles = true

structure SenseHolds (code own : List Line) (state : State) (settled : Bool) : Prop where
  known : (senseAt own state.line).knows = true → Exempt own state.line ∨
    (settled = true → state.cpu.tells = true)
  fresh : senseAt own state.line = .fresh →
    (∀ symbol, code[state.line]? ≠ some (.label symbol)) → state.cpu.tells = true

section Watching

variable {wiring : Wiring} {place : Nat → UInt16} {code own : List Line} {strict : Bool}
  {state after : State} {line : Line} {n : Nat}

theorem senseAt_succ (found : own[n]? = some line) :
    senseAt own (n + 1) = (senseAt own n).next line := by
  rw [senseAt, List.take_add_one, found, List.foldl_append]
  rfl

theorem allows_of_respects {lands : Symbol → Prop}
    (respects : Respects strict lands .accumulator own) (found : own[n]? = some line) :
    (senseAt own n).Allows strict lands line := by
  obtain ⟨inside, rfl⟩ := List.getElem?_eq_some_iff.mp found
  rw [← List.take_append_drop n own, List.drop_eq_getElem_cons inside] at respects
  exact (Emit.respects_append.mp respects).2.1

theorem settles_of_next {sense : Sense} (fresh : sense.next line = .fresh) :
    line.settles = true := by
  by_contra unsettled
  rw [Sense.next, if_neg unsettled] at fresh
  split at fresh
  next => contradiction
  next => split at fresh <;> contradiction

theorem quiet_of_next {sense : Sense} (knows : (sense.next line).knows = true)
    (unsettled : line.settles = false) (single : line.sums = false) :
    line.isQuiet = true ∧ sense.knows = true := by
  rw [Sense.next, if_neg (by simp [unsettled]), single, Bool.false_or] at knows
  split at knows
  next => contradiction
  next =>
    split at knows
    next both => exact Bool.and_eq_true_iff.mp both
    next => contradiction

theorem cmp_of_next {sense : Sense} (compared : sense.next line = .compared) :
    line.mnemonic? = some .cmp := by
  unfold Sense.next at compared
  split at compared
  next => contradiction
  next =>
    split at compared
    next same => exact beq_iff_eq.mp same
    next => split at compared <;> contradiction

theorem Masks.cases (masks : Masks own code) (found : code[n]? = some line) :
    own[n]? = some line ∨ own[n]? = some .blank := by
  induction masks generalizing n with
  | nil => simp at found
  | cons shows _ ih =>
    cases n with
    | zero =>
      obtain rfl := Option.some.inj found
      exact shows.imp (congrArg some) (congrArg some)
    | succ n => exact ih found

theorem Masks.shown (masks : Masks own code) (found : own[n]? = some line)
    (filled : line ≠ .blank) : code[n]? = some line := by
  induction masks generalizing n with
  | nil => simp at found
  | cons shows _ ih =>
    cases n with
    | zero =>
      obtain rfl := Option.some.inj found
      exact congrArg some (shows.resolve_right filled).symm
    | succ n => exact ih found

theorem not_fresh_behind (found : own[n]? = some line) (unsettled : line.settles = false) :
    senseAt own (n + 1) ≠ .fresh := by
  intro fresh
  rw [senseAt_succ found] at fresh
  rw [settles_of_next fresh] at unsettled
  contradiction

theorem not_fresh_of_moved (masks : Masks own code) {shown : Line}
    (found : own[state.line]? = some shown) (unsettled : shown.settles = false)
    (moved : Moved wiring code state line after)
    (unlabelled : ∀ symbol, code[after.line]? ≠ some (.label symbol)) :
    senseAt own after.line ≠ .fresh := by
  cases moved with
  | jumped same jumps place => exact absurd (label_of_lineOf? place) (unlabelled _)
  | called same place tells => exact absurd (label_of_lineOf? place) (unlabelled _)
  | @returned back cpu returns call tells =>
    -- What stands before the line is the call, which leaves the flag alone.
    obtain ⟨caller, present, calls⟩ := Option.bind_eq_some_iff.mp call
    rcases masks.cases present with same | blank
    · exact not_fresh_behind same (by rw [Line.settles, calls]; rfl)
    · exact not_fresh_behind blank rfl
  | _ => exact not_fresh_behind found unsettled

theorem exempt_of_landsIn (masks : Masks own code) (distinct : (Asm.definedLabels code).Nodup)
    {symbol : Symbol} {target : Nat} (lands : LandsIn own symbol)
    (place : lineOf? code symbol = some target) : Exempt own target := by
  obtain ⟨-, line, settles, front, back, split⟩ := lands
  have label : own[front.length]? = some (.label symbol) := by simp [← split]
  have next : own[front.length + 1]? = some line := by simp [← split]
  have there := lineOf?_eq_some distinct (masks.shown label (by simp))
  rw [place] at there
  obtain rfl := Option.some.inj there
  exact .inr ⟨symbol, line, label, next, settles⟩

theorem Exempt.of_unsettled (exempt : Exempt own n) (found : own[n]? = some line)
    (unsettled : line.settles = false) :
    line.mnemonic? = none ∧ Exempt own (n + 1) := by
  rcases exempt with ⟨other, same, settles⟩ | ⟨symbol, next, same, behind, settles⟩
  · rw [found] at same
    obtain rfl := Option.some.inj same
    rw [settles] at unsettled
    contradiction
  · rw [found] at same
    obtain rfl := Option.some.inj same
    exact ⟨rfl, .inl ⟨next, behind, settles⟩⟩

theorem settles_of_isJump {mnemonic : Mnemonic} (jumps : mnemonic.isJump = true) :
    mnemonic.settles = false ∧ mnemonic.sums = false := by
  revert jumps
  cases mnemonic <;> decide

/-- Only executing it leads on from a line that sets the flag from a result. -/
theorem executed_of_moved (moved : Moved wiring code state line after)
    (sets : line.settles = true ∨ line.sums = true) :
    ∃ instruction, line = .instruction instruction ∧
      wiring.execute? instruction state.cpu = some after.cpu := by
  simp only [Line.settles, Line.sums, Option.any_eq_true] at sets
  obtain ⟨mnemonic, found, sets⟩ : ∃ mnemonic, line.mnemonic? = some mnemonic ∧
      (mnemonic.settles = true ∨ mnemonic.sums = true) := by
    rcases sets with ⟨mnemonic, found, settles⟩ | ⟨mnemonic, found, sums⟩
    · exact ⟨mnemonic, found, .inl settles⟩
    · exact ⟨mnemonic, found, .inr sums⟩
  cases moved with
  | passed silent => simp [silent] at found
  | jumped same jumps place =>
    subst same
    obtain rfl := Option.some.inj found
    simp [settles_of_isJump jumps] at sets
  | stayed present jumps =>
    obtain rfl := Option.some.inj (present.symm.trans found)
    simp [settles_of_isJump jumps] at sets
  | called same place tells =>
    subst same
    obtain rfl := Option.some.inj found
    rcases sets with settles | sums <;> contradiction
  | returned present call tells =>
    obtain rfl := Option.some.inj (present.symm.trans found)
    rcases sets with settles | sums <;> contradiction
  | executed same ran => exact ⟨_, same, ran⟩

theorem SenseHolds.tells {settled : Bool} (holds : SenseHolds code own state settled)
    (found : own[state.line]? = some line) (unsettled : line.settles = false)
    (instruction : line.mnemonic? ≠ none) (knows : (senseAt own state.line).knows = true) :
    settled = true → state.cpu.tells = true := by
  rcases holds.known knows with exempt | tells
  · exact absurd (exempt.of_unsettled found unsettled).1 instruction
  · exact tells

theorem SenseHolds.behind {settled : Bool} {cpu : Cpu} (holds : SenseHolds code own state settled)
    (found : own[state.line]? = some line) (unsettled : line.settles = false)
    (single : line.sums = false)
    (same : line.isQuiet = true → cpu.tells = state.cpu.tells)
    (knows : (senseAt own (state.line + 1)).knows = true) :
    Exempt own (state.line + 1) ∨ (settled = true → cpu.tells = true) := by
  rw [senseAt_succ found] at knows
  obtain ⟨quiet, before⟩ := quiet_of_next knows unsettled single
  rw [same quiet]
  rcases holds.known before with exempt | tells
  · exact .inl (exempt.of_unsettled found unsettled).2
  · exact .inr tells

/-- Where a line leads that does not set the flag from the accumulator. -/
theorem SenseHolds.known_of_moved (masks : Masks own code)
    (distinct : (Asm.definedLabels code).Nodup) {settled : Bool}
    (holds : SenseHolds code own state settled)
    (shown : own[state.line]? = some line)
    (allows : (senseAt own state.line).Allows strict (LandsIn own) line)
    (unsettled : line.settles = false) (single : line.sums = false)
    (moved : Moved wiring code state line after)
    (knows : (senseAt own after.line).knows = true) :
    Exempt own after.line ∨ (settled = true → after.cpu.tells = true) := by
  cases moved with
  | passed silent => exact holds.behind shown unsettled single (fun _ => rfl) knows
  | stayed present jumps => exact holds.behind shown unsettled single (fun _ => rfl) knows
  | executed same ran =>
    subst same
    exact holds.behind shown unsettled single (tells_of_isQuiet ran) knows
  | jumped same jumps place =>
    subst same
    -- Jumps that do not know the accumulator are those of comparisons.
    rcases allows.jumps jumps with before | lands
    · exact .inr (holds.tells shown unsettled (Option.some_ne_none _) before)
    · exact .inl (exempt_of_landsIn masks distinct (lands _ rfl) place)
  | called same place tells =>
    subst same
    rw [tells]
    exact .inr (holds.tells shown unsettled (Option.some_ne_none _) (allows.relies rfl))
  | returned present call tells =>
    have before := allows.relies (by rw [present]; rfl)
    rw [tells]
    exact .inr (holds.tells shown unsettled (by simp [present]) before)

/-- One line keeps the flag as sound as it is known to be. -/
theorem SenseHolds.moved (masks : Masks own code) (steady : Steady strict (LandsIn own) own)
    (distinct : (Asm.definedLabels code).Nodup) {settled : Bool}
    (holds : SenseHolds code own state settled) (found : code[state.line]? = some line)
    (moved : Moved wiring code state line after) :
    SenseHolds code own after (settledAfter own state.line settled after.cpu) := by
  by_cases blank : own[state.line]? = some .blank
  · have counted : settledAfter own state.line settled after.cpu = after.cpu.tells := by
      rw [settledAfter, blank]
    rw [counted]
    exact ⟨fun _ => .inr id, fun fresh unlabelled =>
      absurd fresh (not_fresh_of_moved masks blank rfl moved unlabelled)⟩
  · have shown := (masks.cases found).resolve_right blank
    have allows := allows_of_respects steady.respects shown
    have counted : settledAfter own state.line settled after.cpu =
        if line.sums then !after.cpu.flags.decimal else settled || line.settles := by
      rw [settledAfter, shown]
      cases line with
      | blank => exact absurd shown blank
      | _ => rfl
    rw [counted]
    cases settles : line.settles with
    | true =>
      obtain ⟨instruction, rfl, ran⟩ := executed_of_moved moved (.inl settles)
      have tells := tells_of_settles ran settles
      exact ⟨fun _ => .inr fun _ => tells, fun _ _ => tells⟩
    | false =>
      have stale : senseAt own after.line = .fresh →
          (∀ symbol, code[after.line]? ≠ some (.label symbol)) → after.cpu.tells = true :=
        fun fresh unlabelled =>
          absurd fresh (not_fresh_of_moved masks shown settles moved unlabelled)
      cases sums : line.sums with
      | true =>
        obtain ⟨instruction, rfl, ran⟩ := executed_of_moved moved (.inr sums)
        exact ⟨fun _ => .inr fun binary => tells_of_sums ran sums (by simpa using binary), stale⟩
      | false =>
        rw [if_neg Bool.false_ne_true, Bool.or_false]
        exact ⟨holds.known_of_moved masks distinct shown allows settles sums moved, stale⟩

theorem senseHolds_of_watched (masks : Masks own code) (steady : Steady strict (LandsIn own) own)
    (distinct : (Asm.definedLabels code).Nodup) {start : Symbol} {settled : Bool}
    (watched : Watched wiring place code own start state settled) :
    SenseHolds code own state settled := by
  induction watched with
  | reset found =>
    exact ⟨fun _ => .inr id, fun _ unlabelled => absurd (label_of_lineOf? found) (unlabelled _)⟩
  | @moved state settled after before cells step holds =>
    have changed : SenseHolds code own ⟨state.line, { state.cpu with cells }⟩ settled :=
      ⟨holds.known, holds.fresh⟩
    obtain ⟨line, found⟩ : ∃ line, code[state.line]? = some line := by
      apply Option.ne_none_iff_exists'.mp
      intro outside
      simp [Wiring.next?, Wiring.step?, outside] at step
    exact changed.moved masks steady distinct found (moved_of_next? found step)

theorem SenseHolds.tells_of_test (masks : Masks own code) (steady : Steady strict (LandsIn own) own)
    {settled : Bool} (holds : SenseHolds code own state settled) {branch : Mnemonic}
    {label : Symbol} (found : own[state.line]? = some (.direct branch label))
    (tests : branch.testsZero = true)
    (apart : ∀ before, state.line = before + 1 → code[before]?.bind Line.mnemonic? = some .cmp →
      ¬ Emit.IsOutcome label) (known : settled = true ∨ strict = true) :
    state.cpu.tells = true := by
  have allows := allows_of_respects steady.respects found
  have jumps : branch.isJump = true := by
    revert tests
    cases branch <;> decide
  rcases allows.tests tests with ⟨knows, fresh⟩ | compared
  · rcases known with rfl | strictly
    · exact holds.tells found (settles_of_isJump jumps).1 (Option.some_ne_none _) knows rfl
    · refine holds.fresh (fresh strictly) fun symbol labelled => ?_
      rw [masks.shown found (by simp [Line.direct, Line.on])] at labelled
      simp [Line.direct, Line.on] at labelled
  · rcases line : state.line with _ | before
    · rw [line] at compared
      contradiction
    · obtain ⟨inside, -⟩ := List.getElem?_eq_some_iff.mp found
      have present : own[before]? = some own[before] := List.getElem?_eq_getElem (by omega)
      rw [line, senseAt_succ present] at compared
      have cmp := cmp_of_next compared
      have shown := masks.shown present fun blank => by simp [blank, Line.mnemonic?] at cmp
      have lands := (allows.jumps jumps).resolve_left (by
        rw [line, senseAt_succ present, compared]
        decide)
      exact absurd (lands label rfl).1 (apart before line (by simpa [shown] using cmp))

end Watching

end Cartridge.Machine

namespace Cartridge.Listing

open Asm (Line)
open Emit (LandsIn Steady)
open Program (Bodies Subroutine)

/-- The lines of a part if they are compiled, and as many blanks if not. -/
def Part.ownLines (part : Part) : List Line :=
  if part.source = .compiled then part.lines else part.lines.map fun _ => .blank

def Image.ownLines (image : Image) : List Line :=
  image.parts.flatMap Part.ownLines

theorem masks_ownLines (part : Part) : Machine.Masks part.ownLines part.lines := by
  unfold Part.ownLines
  split
  next => exact List.forall₂_same.mpr fun _ _ => .inl rfl
  next => exact List.forall₂_map_left_iff.mpr (List.forall₂_same.mpr fun _ _ => .inr rfl)

theorem Image.masks (image : Image) : Machine.Masks image.ownLines image.lines := by
  rw [image.lines_eq_parts, ownLines]
  induction image.parts with
  | nil => exact .nil
  | cons part parts ih => exact (masks_ownLines part).append ih

theorem steady_flatMap {strict : Bool} {parts : List Part}
    (steady : ∀ part ∈ parts, Steady strict (LandsIn part.ownLines) part.ownLines) :
    Steady strict (LandsIn (parts.flatMap Part.ownLines)) (parts.flatMap Part.ownLines) := by
  induction parts with
  | nil => exact Emit.steady_nil
  | cons part parts ih =>
    have first := steady part List.mem_cons_self
    have rest := ih fun other member => steady other (List.mem_cons_of_mem _ member)
    rw [List.flatMap_cons]
    exact (first.mono fun _ lands => lands.mono (List.prefix_append _ _).isInfix).append
      (rest.mono fun _ lands => lands.mono (List.suffix_append _ _).isInfix)

namespace Image.MadeFrom

variable {image : Image} {library : Asm.Library} {optimize : Bool} {program : Program}
  {bodies : Bodies}

theorem steady_part (made : image.MadeFrom library optimize program bodies) {part : Part}
    (member : part ∈ image.parts) : Steady (!optimize) (LandsIn part.ownLines) part.ownLines := by
  by_cases source : part.source = .compiled
  · obtain ⟨id, subroutine, found, rfl⟩ := made.body_of_mem_parts member (.inl source)
    rw [Part.ownLines, if_pos source, bodyPart, bodyLines, Subroutine.body?_withBody,
      made.wellFormed.subroutineId id subroutine found]
    cases present : bodies id with
    | none => exact Emit.steady_nil
    | some body =>
      have own : ∀ implementation, subroutine.intrinsic? ≠ some (.useProvided implementation) := by
        intro implementation marked
        simp [bodyPart, bodySource, marked] at source
      have steady := Emit.steady_of_compiles made.wellFormed made.ran found present own
      exact (steady.code.mono fun _ lands => lands.mono (List.prefix_append _ _).isInfix).append
        (Emit.steady_of_calm steady.data)
  · rw [Part.ownLines, if_neg source]
    exact Emit.steady_of_calm (by simp [Line.isCalm, Line.mnemonic?])

theorem steady (made : image.MadeFrom library optimize program bodies) :
    Steady (!optimize) (LandsIn image.ownLines) image.ownLines :=
  steady_flatMap fun _ member => made.steady_part member

end Image.MadeFrom

end Cartridge.Listing

namespace Cartridge

open Asm (Line Mnemonic Symbol definedLabels)
open Listing (Image entryPoint)

/-- In every run, a branch of compiled code on the zero flag finds it telling whether the
accumulator is zero. Left out are the branches of comparisons, which stand right behind them and go
to labels of their own. With the peephole rules applied the flag has to be settled: routines of a
library leave it telling the accumulator, or a line behind them has set it, other than by a sum of
digits. -/
theorem branch_tells_accumulator {module : Source.Module} {library : Asm.Library}
    {options : Options} {image : Image} (compiled : compile module library options = .ok image)
    (distinct : (definedLabels image.lines).Nodup) {wiring : Machine.Wiring}
    {place : Nat → UInt16} {state : Machine.State} {settled : Bool}
    (watched : Machine.Watched wiring place image.lines image.ownLines entryPoint state settled)
    {branch : Mnemonic} {label : Symbol}
    (found : image.ownLines[state.line]? = some (.direct branch label))
    (tests : branch = .bne ∨ branch = .beq)
    (apart : ∀ before, state.line = before + 1 →
      image.lines[before]?.bind Line.mnemonic? = some .cmp → ¬ Emit.IsOutcome label)
    (known : settled = true ∨ options.optimize = false) :
    state.cpu.flags.zero = (state.cpu.a == 0) := by
  obtain ⟨program, bodies, -, -, made⟩ := compile_eq_ok compiled
  have holds := Machine.senseHolds_of_watched image.masks made.steady distinct watched
  refine beq_iff_eq.mp (holds.tells_of_test image.masks made.steady found ?_ apart ?_)
  · rcases tests with rfl | rfl <;> rfl
  · simpa using known

/-- The console with the addresses of a listing, where all other symbols stand for the switches. -/
def Listing.Image.console (image : Image) : Machine.Wiring :=
  .console fun symbol =>
    ((image.memory.allocations.find? fun allocation => allocation.symbol == symbol).map
      (·.address)).getD 0x282

def Machine.Cpu.filled (byte : UInt8) : Machine.Cpu :=
  { a := byte, x := byte, y := byte, s := byte, flags := .ofByte byte, cells := fun _ => byte }

def Listing.Image.play? (image : Image) (byte : UInt8) (steps : Nat) :
    Option (Machine.State × Bool) :=
  (Machine.lineOf? image.lines entryPoint).bind fun line =>
    image.console.watch? UInt16.ofNat image.lines image.ownLines steps ⟨line, .filled byte⟩
      (Machine.Cpu.filled byte).tells

theorem watched_of_play? {image : Image} {byte : UInt8} {steps : Nat} {state : Machine.State}
    {settled : Bool} (played : image.play? byte steps = some (state, settled)) :
    Machine.Watched image.console UInt16.ofNat image.lines image.ownLines entryPoint state
      settled := by
  obtain ⟨line, found, ran⟩ := Option.bind_eq_some_iff.mp played
  exact (Machine.Watched.reset found).watch ran

theorem branch_tells_accumulator_arcade :
    ∃ image state, compile arcade shelf {} = .ok image ∧ (definedLabels image.lines).Nodup ∧
      Machine.Watched image.console UInt16.ofNat image.lines image.ownLines entryPoint state true ∧
      image.ownLines[state.line]? = some (.direct .bne "Game_Settle_IL_0003_Game_Main_Inline_2") ∧
      state.cpu.a = 5 ∧ state.cpu.flags.zero = (state.cpu.a == 0) := by
  have passed : (compile arcade shelf {}).toOption.any (fun image =>
      (definedLabels image.lines).Nodup ∧
      image.ownLines[28]? = some (.direct .bne "Game_Settle_IL_0003_Game_Main_Inline_2") ∧
      image.lines[27]?.bind Line.mnemonic? = some .sta ∧
      (image.play? 5 532).map (fun (state, settled) => (state.line, state.cpu.a, settled)) =
        some (28, 5, true)) = true := by
    decide +kernel
  obtain ⟨image, compiled, facts⟩ := exists_of_any passed
  obtain ⟨distinct, found, stores, played⟩ := of_decide_eq_true facts
  obtain ⟨⟨state, settled⟩, reached, same⟩ := Option.map_eq_some_iff.mp played
  obtain ⟨line, five, rfl⟩ : state.line = 28 ∧ state.cpu.a = 5 ∧ settled = true := by
    simpa using same
  have watched := watched_of_play? reached
  rw [← line] at found
  refine ⟨image, state, compiled, distinct, watched, found, five,
    branch_tells_accumulator compiled distinct watched found (.inl rfl) ?_ (.inl rfl)⟩
  intro before behind cmp
  obtain rfl : before = 27 := by omega
  rw [stores] at cmp
  contradiction

/-- Some run comes from a line of compiled code to a branch behind it with nothing in the
accumulator and the zero flag clear. -/
def Misled (module : Source.Module) (library : Asm.Library) (line : Line) (label : Symbol) : Prop :=
  ∃ image state settled before, compile module library {} = .ok image ∧
    (definedLabels image.lines).Nodup ∧
    Machine.Watched image.console UInt16.ofNat image.lines image.ownLines entryPoint state
      settled ∧
    state.line = before + 1 ∧ image.ownLines[before]? = some line ∧
    image.ownLines[state.line]? = some (.direct .beq label) ∧
    state.cpu.a = 0 ∧ state.cpu.flags.zero = false

theorem misled_of_play? {module : Source.Module} {library : Asm.Library} {line : Line}
    {label : Symbol} (before steps : Nat)
    (passed : (compile module library {}).toOption.any (fun image =>
      (definedLabels image.lines).Nodup ∧ image.ownLines[before]? = some line ∧
      image.ownLines[before + 1]? = some (.direct .beq label) ∧
      (image.play? 5 steps).map (fun (state, _) =>
        (state.line, state.cpu.a, state.cpu.flags.zero)) = some (before + 1, 0, false)) = true) :
    Misled module library line label := by
  obtain ⟨image, compiled, facts⟩ := exists_of_any passed
  obtain ⟨distinct, behind, found, played⟩ := of_decide_eq_true facts
  obtain ⟨⟨state, settled⟩, reached, same⟩ := Option.map_eq_some_iff.mp played
  obtain ⟨place, nothing, misled⟩ :
      state.line = before + 1 ∧ state.cpu.a = 0 ∧ state.cpu.flags.zero = false := by
    simpa using same
  rw [← place] at found
  exact ⟨image, state, settled, before, compiled, distinct, watched_of_play? reached, place,
    behind, found, nothing, misled⟩

def fickle : Source.Module :=
  { types := [{ name := "Game", subroutines :=
      [{ name := "Main", isEntry := true
         instructions :=
          [⟨"call", some (.method ⟨"Game", "Probe"⟩)⟩, ⟨"brfalse", some (.target 3)⟩,
            ⟨"ret", none⟩, ⟨"ret", none⟩] },
       { name := "Probe", returns := "byte", intrinsic? := some (.useProvided "Probe") }] }] }

/-- A routine that returns zero and leaves the flag to another register. -/
def distractedShelf : Asm.Library :=
  { implementations := [⟨"Probe", [.immediate .lda 0, .immediate .ldx 1, .op .rts]⟩] }

def counting : Source.Module :=
  { types := [{ name := "Game", subroutines :=
      [{ name := "Main", isEntry := true
         instructions :=
          [⟨"call", some (.method ⟨"Game", "Score"⟩)⟩, ⟨"ldc", some (.constant 1)⟩, ⟨"add", none⟩,
            ⟨"brfalse", some (.target 5)⟩, ⟨"ret", none⟩, ⟨"ret", none⟩] },
       { name := "Score", returns := "byte", intrinsic? := some (.useProvided "Score") }] }] }

/-- A routine that returns two digits and has digits added from then on. -/
def decimalShelf : Asm.Library :=
  { implementations := [⟨"Score", [.op .sed, .immediate .lda 0x99, .op .rts]⟩] }

/-- The flag need not tell what a routine returns right behind the call, nor a sum of digits. -/
theorem branch_misled_fickle :
    Misled fickle distractedShelf (.direct .jsr "Game_Probe") "Game_Main_IL_0003" ∧
      Misled counting decimalShelf (.direct .adc "TEMP0") "Game_Main_IL_0005" := by
  constructor
  · apply misled_of_play? 19 525
    decide +kernel
  · apply misled_of_play? 25 531
    decide +kernel

end Cartridge
