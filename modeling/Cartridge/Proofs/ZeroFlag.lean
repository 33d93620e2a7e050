import Cartridge.Proofs.BodyNames

/-!
What the zero flag tells along the code of a body.

Most instructions leave the flag telling whether the accumulator is zero, or leave both alone.
Sums do so unless digits are added. Comparisons do not, so a branch on them has to go where the
accumulator is loaded anew. The peephole rules drop loads and pulls that set the flag, which is
sound as long as stores and pushes only stand where the flag already tells the accumulator.
-/

namespace Cartridge.Asm

namespace Mnemonic

/-- Sets the zero flag from the accumulator. -/
def settles : Mnemonic → Bool
  | .lda | .pla | .and | .ora | .eor | .txa | .tya | .tax | .tay => true
  | _ => false

/-- Sets the zero flag from the binary sum, which is in the accumulator unless digits are added. -/
def sums : Mnemonic → Bool
  | .adc | .sbc => true
  | _ => false

/-- Touches neither the accumulator nor the zero flag. -/
def isQuiet : Mnemonic → Bool
  | .sta | .stx | .sty | .pha | .php | .txs | .clc | .cld | .cli | .clv | .sec | .sed | .sei
  | .nop | .bcc | .bcs | .beq | .bmi | .bne | .bpl | .bvc | .bvs | .jmp | .jsr | .rts => true
  | _ => false

def isJump : Mnemonic → Bool
  | .bcc | .bcs | .beq | .bmi | .bne | .bpl | .bvc | .bvs | .jmp => true
  | _ => false

def testsZero : Mnemonic → Bool
  | .beq | .bne => true
  | _ => false

/-- Relies on the flag: stores and pushes, of which a rule may drop the loads behind them, and what
leads from one body to another. -/
def relies : Mnemonic → Bool
  | .sta | .pha | .jsr | .rts => true
  | _ => false

/-- Keeps the flag telling the accumulator, and does not test it. -/
def isCalm (mnemonic : Mnemonic) : Bool :=
  mnemonic.settles || mnemonic.sums || mnemonic.isQuiet && !mnemonic.testsZero

def isIdle (mnemonic : Mnemonic) : Bool :=
  !mnemonic.relies && !mnemonic.isJump

theorem of_isIdle {mnemonic : Mnemonic} (idle : mnemonic.isIdle = true) :
    mnemonic.relies = false ∧ mnemonic.isJump = false ∧ mnemonic.testsZero = false := by
  revert idle
  cases mnemonic <;> decide

theorem testsZero_of_isCalm {mnemonic : Mnemonic} (calm : mnemonic.isCalm = true) :
    mnemonic.testsZero = false := by
  revert calm
  cases mnemonic <;> decide

theorem of_isCalm {mnemonic : Mnemonic} (calm : mnemonic.isCalm = true)
    (unsettled : mnemonic.settles = false) :
    (mnemonic.sums = true ∨ mnemonic.isQuiet = true) ∧ (some mnemonic == some .cmp) = false := by
  revert calm unsettled
  cases mnemonic <;> decide

end Mnemonic

namespace Line

def settles (line : Line) : Bool :=
  line.mnemonic?.any Mnemonic.settles

def sums (line : Line) : Bool :=
  line.mnemonic?.any Mnemonic.sums

def isQuiet (line : Line) : Bool :=
  line.mnemonic?.all Mnemonic.isQuiet

def isCalm (line : Line) : Bool :=
  line.mnemonic?.all Mnemonic.isCalm

def isIdle (line : Line) : Bool :=
  line.mnemonic?.all Mnemonic.isIdle

@[simp] theorem isCalm_op (mnemonic : Mnemonic) : (op mnemonic).isCalm = mnemonic.isCalm := rfl

@[simp] theorem isCalm_on (mnemonic : Mnemonic) (mode : Mode) (value : Value) :
    (on mnemonic mode value).isCalm = mnemonic.isCalm := rfl

@[simp] theorem isCalm_direct (mnemonic : Mnemonic) (symbol : Symbol) :
    (direct mnemonic symbol).isCalm = mnemonic.isCalm := rfl

@[simp] theorem isCalm_immediate (mnemonic : Mnemonic) (byte : UInt8) :
    (immediate mnemonic byte).isCalm = mnemonic.isCalm := rfl

@[simp] theorem isCalm_label (symbol : Symbol) : (label symbol).isCalm = true := rfl

end Line

end Cartridge.Asm

namespace Cartridge.Emit

open Asm
open Program (Bodies Body Subroutine TypeTable)

/-- What the zero flag tells in front of a line. -/
inductive Sense where
  /-- The accumulator, from which the line before has set it. -/
  | fresh
  | accumulator
  /-- A comparison in the line before. -/
  | compared
  | stray
  deriving DecidableEq, Repr

namespace Sense

def knows : Sense → Bool
  | .fresh => true
  | .accumulator => true
  | _ => false

def next (sense : Sense) (line : Line) : Sense :=
  if line.settles then .fresh
  else if line.mnemonic? == some .cmp then .compared
  else if line.sums || line.isQuiet && sense.knows then .accumulator
  else .stray

/-- Whether a line may stand where the flag has a sense. Jumps that do not know the accumulator have
to land where it does not matter, and tests of the flag that do not are those of comparisons. In
strict code a test follows what sets the flag. -/
structure Allows (strict : Bool) (lands : Symbol → Prop) (sense : Sense) (line : Line) : Prop where
  relies : line.mnemonic?.any Mnemonic.relies = true → sense.knows = true
  jumps : line.mnemonic?.any Mnemonic.isJump = true → sense.knows = true ∨
    ∀ symbol, line.reference? = some symbol → lands symbol
  tests : line.mnemonic?.any Mnemonic.testsZero = true →
    sense.knows = true ∧ (strict = true → sense = .fresh) ∨ sense = .compared

end Sense

def Respects (strict : Bool) (lands : Symbol → Prop) : Sense → List Line → Prop
  | _, [] => True
  | sense, line :: rest =>
    sense.Allows strict lands line ∧ Respects strict lands (sense.next line) rest

/-- Code that can be entered and left with the flag telling the accumulator. -/
structure Steady (strict : Bool) (lands : Symbol → Prop) (code : List Line) : Prop where
  respects : Respects strict lands .accumulator code
  knows : (code.foldl Sense.next .accumulator).knows = true

section Steady

variable {strict : Bool} {lands : Symbol → Prop} {sense other : Sense} {line : Line}
  {code more : List Line}

theorem Sense.next_eq (knows : sense.knows = true) (knowsOther : other.knows = true) :
    sense.next line = other.next line := by
  rw [next, next, knows, knowsOther]

theorem Sense.Allows.ofKnows (allows : Sense.accumulator.Allows strict lands line)
    (knows : sense.knows = true) : sense.Allows strict lands line := by
  refine ⟨fun _ => knows, fun _ => .inl knows, fun tests => ?_⟩
  rcases allows.tests tests with ⟨-, fresh⟩ | compared
  · exact .inl ⟨knows, fun isStrict => absurd (fresh isStrict) (by decide)⟩
  · contradiction

theorem Respects.fresh (respects : Respects strict lands .accumulator code)
    (knows : sense.knows = true) : Respects strict lands sense code := by
  cases code with
  | nil => trivial
  | cons line code =>
    have same : sense.next line = Sense.accumulator.next line := Sense.next_eq knows rfl
    exact ⟨respects.1.ofKnows knows, by rw [same]; exact respects.2⟩

theorem respects_append : Respects strict lands sense (code ++ more) ↔
    Respects strict lands sense code ∧
      Respects strict lands (code.foldl Sense.next sense) more := by
  induction code generalizing sense with
  | nil => simp [Respects]
  | cons line code ih => simp only [List.cons_append, Respects, ih, List.foldl_cons, and_assoc]

theorem foldl_next_knows (knows : sense.knows = true)
    (ends : (code.foldl Sense.next .accumulator).knows = true) :
    (code.foldl Sense.next sense).knows = true := by
  cases code with
  | nil => exact knows
  | cons line code =>
    have same : sense.next line = Sense.accumulator.next line := Sense.next_eq knows rfl
    rwa [List.foldl_cons, same]

theorem steady_nil : Steady strict lands [] :=
  ⟨trivial, rfl⟩

theorem Steady.append (steady : Steady strict lands code) (next : Steady strict lands more) :
    Steady strict lands (code ++ more) := by
  refine ⟨respects_append.mpr ⟨steady.respects, next.respects.fresh steady.knows⟩, ?_⟩
  rw [List.foldl_append]
  exact foldl_next_knows steady.knows next.knows

theorem Respects.mono {wider : Symbol → Prop} (respects : Respects strict lands sense code)
    (includes : ∀ symbol, lands symbol → wider symbol) : Respects strict wider sense code := by
  induction code generalizing sense with
  | nil => trivial
  | cons line code ih =>
    refine ⟨⟨respects.1.relies, fun jump => ?_, respects.1.tests⟩, ih respects.2⟩
    exact (respects.1.jumps jump).imp_right fun known symbol refers =>
      includes symbol (known symbol refers)

theorem Steady.mono {wider : Symbol → Prop} (steady : Steady strict lands code)
    (includes : ∀ symbol, lands symbol → wider symbol) : Steady strict wider code :=
  ⟨steady.respects.mono includes, steady.knows⟩

theorem Sense.Allows.of_calm (knows : sense.knows = true) (calm : line.isCalm = true) :
    sense.Allows strict lands line := by
  refine ⟨fun _ => knows, fun _ => .inl knows, fun tests => ?_⟩
  rw [Line.isCalm] at calm
  cases mnemonic : line.mnemonic? with
  | none => simp [mnemonic] at tests
  | some found =>
    rw [mnemonic] at calm tests
    exact absurd tests (by simp [Mnemonic.testsZero_of_isCalm calm])

theorem Sense.next_of_calm (knows : sense.knows = true) (calm : line.isCalm = true) :
    (sense.next line).knows = true := by
  rw [Line.isCalm] at calm
  rw [next, Line.settles, Line.sums, Line.isQuiet, knows]
  cases mnemonic : line.mnemonic? with
  | none => rfl
  | some found =>
    rw [mnemonic] at calm
    cases settles : found.settles with
    | true => simp [settles, Sense.knows]
    | false =>
      obtain ⟨works, uncompared⟩ := Mnemonic.of_isCalm calm settles
      rcases works with sums | quiet
      · simp [settles, sums, uncompared, Sense.knows]
      · simp [settles, quiet, uncompared, Sense.knows]

theorem Sense.Allows.of_fresh (line : Line) : Sense.fresh.Allows strict lands line :=
  ⟨fun _ => rfl, fun _ => .inl rfl, fun _ => .inl ⟨rfl, fun _ => rfl⟩⟩

theorem Sense.Allows.of_landing {mnemonic : Mnemonic} {symbol : Symbol} (landing : lands symbol)
    (idle : mnemonic.relies = false) (tests : mnemonic.testsZero = true → sense = .compared) :
    sense.Allows strict lands (.direct mnemonic symbol) := by
  refine ⟨fun relies => ?_, fun _ => .inr fun _ refers => ?_, fun zero => .inr (tests zero)⟩
  · exact absurd relies (by simp [Line.mnemonic?, Line.direct, Line.on, idle])
  · obtain rfl := Option.some.inj refers
    exact landing

theorem Sense.Allows.of_idle (idle : line.isIdle = true) : sense.Allows strict lands line := by
  rw [Line.isIdle] at idle
  cases mnemonic : line.mnemonic? with
  | none => constructor <;> simp [mnemonic]
  | some found =>
    rw [mnemonic, Option.all_some] at idle
    obtain ⟨relies, jumps, tests⟩ := Mnemonic.of_isIdle idle
    constructor <;> simp [mnemonic, relies, jumps, tests]

theorem steady_of_calm (calm : code.all Line.isCalm = true) : Steady strict lands code := by
  induction code with
  | nil => exact steady_nil
  | cons line code ih =>
    rw [List.all_cons, Bool.and_eq_true] at calm
    have first : Steady strict lands [line] :=
      ⟨⟨Sense.Allows.of_calm rfl calm.1, trivial⟩, Sense.next_of_calm rfl calm.1⟩
    exact first.append (ih calm.2)

end Steady

/-- The stems of labels that comparisons branch to. -/
def outcomeStems : List String :=
  ["CgtFalse", "CgtTrue", "CeqFalse", "CeqTrue", "CltFalse", "CltTrue"]

/-- A label inside the code of a comparison. -/
def IsOutcome (symbol : Symbol) : Prop :=
  ∃ name : Name, (∃ stem ∈ outcomeStems, ∃ n, name.mark = .numbered stem n) ∧ symbol = name.render

/-- A label of a comparison behind which the flag is set from the accumulator at once. -/
def LandsIn (code : List Line) (symbol : Symbol) : Prop :=
  IsOutcome symbol ∧ ∃ line, line.settles = true ∧ [.label symbol, line] <:+: code

theorem LandsIn.mono {code more : List Line} (inside : code <:+: more) {symbol : Symbol}
    (lands : LandsIn code symbol) : LandsIn more symbol := by
  obtain ⟨outcome, line, settles, pair⟩ := lands
  exact ⟨outcome, line, settles, pair.trans inside⟩

theorem infix_of_dropped {α : Type} {first second dropped : α} {front back : List α}
    (apart : first ≠ dropped) (apartSecond : second ≠ dropped)
    (inside : [first, second] <:+: front ++ dropped :: back) :
    [first, second] <:+: front ++ back := by
  induction front with
  | nil =>
    rcases List.infix_cons_iff.mp inside with start | later
    · exact absurd (List.cons_prefix_cons.mp start).1 apart
    · exact later
  | cons head front ih =>
    rcases List.infix_cons_iff.mp inside with start | later
    · obtain ⟨rfl, rest⟩ := List.cons_prefix_cons.mp start
      cases front with
      | nil => exact absurd (List.cons_prefix_cons.mp rest).1 apartSecond
      | cons next front =>
        obtain ⟨rfl, -⟩ := List.cons_prefix_cons.mp rest
        exact ⟨[], front ++ back, rfl⟩
    · exact (ih later).trans (List.infix_cons (List.infix_refl _))

section Closure

variable {strict : Bool} {lands : Symbol → Prop} {code : List Line}

theorem Sense.next_congr {line other : Line} (same : line.mnemonic? = other.mnemonic?)
    (sense : Sense) : sense.next line = sense.next other := by
  rw [next, next, Line.settles, Line.sums, Line.isQuiet, same]
  rfl

theorem Sense.next_of_return {line : Line} (returns : line.mnemonic? = some .rts)
    (sense : Sense) : sense.next line = if sense.knows then .accumulator else .stray := by
  rw [next, Line.settles, Line.sums, Line.isQuiet, returns]
  rfl

theorem mnemonic?_of_isReturn {line : Line} (returns : isReturn line = true) :
    line.mnemonic? = some .rts := by
  simpa [isReturn] using returns

theorem Steady.dropLastReturn (steady : Steady strict lands code) :
    Steady strict lands (dropLastReturn code) := by
  rcases dropLastReturn_cases code with ⟨front, last, back, rfl, returns, -, dropped⟩ | ⟨same, -⟩
  · have mnemonic := mnemonic?_of_isReturn returns
    obtain ⟨before, allows, behind⟩ := respects_append.mp steady.respects
    have knows := allows.relies (by rw [mnemonic]; rfl)
    have same : (front.foldl Sense.next .accumulator).next last = .accumulator := by
      rw [Sense.next_of_return mnemonic, if_pos knows]
    have ends := steady.knows
    rw [same] at behind
    rw [List.foldl_append, List.foldl_cons, same] at ends
    rw [dropped]
    refine ⟨respects_append.mpr ⟨before, behind.fresh knows⟩, ?_⟩
    rw [List.foldl_append]
    exact foldl_next_knows knows ends
  · rwa [same]

theorem LandsIn.dropLastReturn {symbol : Symbol} (lands : LandsIn code symbol) :
    LandsIn (dropLastReturn code) symbol := by
  rcases dropLastReturn_cases code with ⟨front, last, back, rfl, returns, -, dropped⟩ | ⟨same, -⟩
  · have mnemonic := mnemonic?_of_isReturn returns
    obtain ⟨outcome, line, settles, inside⟩ := lands
    rw [dropped]
    refine ⟨outcome, line, settles, infix_of_dropped ?_ ?_ inside⟩
    · rintro rfl
      contradiction
    · rintro rfl
      simp [Line.settles, mnemonic, Mnemonic.settles] at settles
  · rwa [same]

theorem Respects.map {wider : Symbol → Prop} {change : Line → Line}
    (same : ∀ (sense : Sense) (line : Line), sense.next (change line) = sense.next line)
    (allows : ∀ (sense : Sense), ∀ line ∈ code, sense.Allows strict lands line →
      sense.Allows strict wider (change line))
    {sense : Sense} (respects : Respects strict lands sense code) :
    Respects strict wider sense (code.map change) := by
  induction code generalizing sense with
  | nil => trivial
  | cons line code ih =>
    refine ⟨allows sense line List.mem_cons_self respects.1, ?_⟩
    rw [same]
    exact ih (fun sense line member => allows sense line (List.mem_cons_of_mem _ member)) respects.2

theorem foldl_next_map {change : Line → Line}
    (same : ∀ (sense : Sense) (line : Line), sense.next (change line) = sense.next line)
    (sense : Sense) : (code.map change).foldl Sense.next sense = code.foldl Sense.next sense := by
  simp only [List.foldl_map, same]

theorem mnemonic?_relabel (rename : Symbol → Symbol) (line : Line) :
    (relabel rename line).mnemonic? = line.mnemonic? := by
  cases line <;> rfl

theorem next_spliceLine (place : Symbol) (rename : Symbol → Symbol) (sense : Sense) (line : Line) :
    sense.next (spliceLine place rename line) = sense.next line := by
  unfold spliceLine
  split
  next returns =>
    rw [Sense.next_of_return (mnemonic?_of_isReturn returns)]
    rfl
  next => exact Sense.next_congr (mnemonic?_relabel rename line) sense

theorem allows_spliceLine {place : Symbol} {rename : Symbol → Symbol} {wider : Symbol → Prop}
    (renamed : ∀ symbol, lands symbol → wider (rename symbol)) {sense : Sense} {line : Line}
    (allows : sense.Allows strict lands line) :
    sense.Allows strict wider (spliceLine place rename line) := by
  unfold spliceLine
  split
  next returns =>
    have knows := allows.relies (by rw [mnemonic?_of_isReturn returns]; rfl)
    exact ⟨fun _ => knows, fun _ => .inl knows, fun tests => by contradiction⟩
  next =>
    refine ⟨?_, ?_, ?_⟩
    · rw [mnemonic?_relabel]
      exact allows.relies
    · rw [mnemonic?_relabel]
      intro jump
      refine (allows.jumps jump).imp_right fun known symbol refers => ?_
      have plain : line.isPlain = true := by
        cases line with
        | instruction _ => rfl
        | _ => contradiction
      obtain ⟨original, referred, rfl⟩ := reference?_relabel plain refers
      exact renamed original (known original referred)
    · rw [mnemonic?_relabel]
      exact allows.tests

theorem IsOutcome.copy {symbol : Symbol} (outcome : IsOutcome symbol) (host : Symbol) (n : Nat) :
    IsOutcome (symbol ++ "_" ++ copyPlace host n) := by
  obtain ⟨name, marked, rfl⟩ := outcome
  exact ⟨name.copy (host, n), marked, (render_copy_eq host n name).symm⟩

theorem LandsIn.map {body : Body} {kept : List Line} (within : kept.Sublist body.code)
    (host : Symbol) (n : Nat) {symbol : Symbol} (lands : LandsIn kept symbol) :
    LandsIn
      (kept.map (spliceLine (copyPlace host n) (renameAt (copyPlace host n) (bodyLabels body))))
      (renameAt (copyPlace host n) (bodyLabels body) symbol) := by
  obtain ⟨outcome, line, settles, inside⟩ := lands
  have labelled : .label symbol ∈ kept := inside.subset List.mem_cons_self
  have own : symbol ∈ bodyLabels body :=
    List.mem_append_left _ (List.mem_filterMap.mpr ⟨_, within.subset labelled, rfl⟩)
  have kindred : (spliceLine (copyPlace host n) (renameAt (copyPlace host n) (bodyLabels body))
      line).settles = true := by
    unfold spliceLine
    split
    next returns => simp [Line.settles, mnemonic?_of_isReturn returns, Mnemonic.settles] at settles
    next => rwa [Line.settles, mnemonic?_relabel]
  have pair := inside.map
    (spliceLine (copyPlace host n) (renameAt (copyPlace host n) (bodyLabels body)))
  refine ⟨?_, _, kindred, pair⟩
  rw [renameAt, if_pos (by simpa using own)]
  exact outcome.copy host n

theorem Steady.copy {body : Body} (steady : Steady strict (LandsIn body.code) body.code)
    (host : Symbol) (n : Nat) :
    Steady strict (LandsIn (splice (copyPlace host n) body).code)
      (splice (copyPlace host n) body).code := by
  let rename := renameAt (copyPlace host n) (bodyLabels body)
  let kept := Emit.dropLastReturn body.code
  have inner : Steady strict (LandsIn kept) kept :=
    steady.dropLastReturn.mono fun symbol lands => lands.dropLastReturn
  have mapped : Steady strict (LandsIn (kept.map (spliceLine (copyPlace host n) rename)))
      (kept.map (spliceLine (copyPlace host n) rename)) := by
    have same := next_spliceLine (copyPlace host n) rename
    refine ⟨inner.respects.map same fun sense line member allows => ?_, ?_⟩
    · exact allows_spliceLine
        (fun symbol lands => lands.map (dropLastReturn_sublist body.code) host n) allows
    · rw [foldl_next_map same]
      exact inner.knows
  refine (mapped.mono fun symbol lands => lands.mono ?_).append (steady_of_calm ?_)
  · exact (List.prefix_append _ _).isInfix
  · split <;> rfl

def Sense.Alike (first second : Sense) : Prop :=
  first = second ∨ first.knows = true ∧ second.knows = true

theorem Sense.Alike.knows {first second : Sense} (alike : first.Alike second)
    (knows : second.knows = true) : first.knows = true := by
  rcases alike with rfl | ⟨first, -⟩
  · exact knows
  · exact first

theorem Sense.Alike.next {first second : Sense} (alike : first.Alike second) (line : Line) :
    (first.next line).Alike (second.next line) := by
  rcases alike with rfl | ⟨knows, knowsSecond⟩
  · exact .inl rfl
  · exact .inl (Sense.next_eq knows knowsSecond)

theorem Sense.Alike.allows {first second : Sense} (alike : first.Alike second) {line : Line}
    (allows : second.Allows strict lands line) : first.Allows false lands line := by
  refine ⟨fun relies => alike.knows (allows.relies relies), fun jump => ?_, fun tests => ?_⟩
  · exact (allows.jumps jump).imp_left alike.knows
  · rcases alike with rfl | ⟨knows, -⟩
    · exact (allows.tests tests).imp_left fun known => ⟨known.1, by simp⟩
    · exact .inl ⟨knows, by simp⟩

theorem Sense.next_of_settles {line : Line} (settles : line.settles = true) (sense : Sense) :
    sense.next line = .fresh := by
  rw [next, if_pos settles]

open Peephole in
/-- Dropping a line leaves the flag as known as before, since what stands in front of it could rely
on the flag. -/
theorem respects_add {written : List Line} {line : Line} {sense : Sense}
    (respects : Respects false lands .accumulator written.reverse)
    (alike : (written.reverse.foldl Sense.next .accumulator).Alike sense)
    (allows : sense.Allows strict lands line) :
    Respects false lands .accumulator (add written line).reverse ∧
      ((add written line).reverse.foldl Sense.next .accumulator).Alike (sense.next line) := by
  have written_line : Respects false lands .accumulator (line :: written).reverse ∧
      ((line :: written).reverse.foldl Sense.next .accumulator).Alike (sense.next line) := by
    rw [List.reverse_cons, List.foldl_append, respects_append]
    exact ⟨⟨respects, alike.allows allows, trivial⟩, alike.next line⟩
  cases written with
  | nil => exact written_line
  | cons last written =>
    have front := respects
    rw [List.reverse_cons, respects_append] at front
    obtain ⟨before, allowsLast, -⟩ := front
    simp only [add]
    split
    next redundant =>
      obtain ⟨push, pull⟩ := mnemonics_of_isPushPull redundant
      rw [Sense.next_of_settles (by rw [Line.settles, pull]; rfl)]
      exact ⟨before, .inr ⟨allowsLast.relies (by rw [push]; rfl), rfl⟩⟩
    next =>
      split
      next redundant =>
        obtain ⟨stores, loads⟩ := mnemonics_of_isStoreLoad redundant
        have knows := allowsLast.relies (by rw [stores]; rfl)
        have calm : last.isCalm = true := by
          rw [Line.isCalm, stores]
          rfl
        rw [Sense.next_of_settles (by rw [Line.settles, loads]; rfl)]
        refine ⟨respects, .inr ⟨?_, rfl⟩⟩
        rw [List.reverse_cons, List.foldl_append]
        exact Sense.next_of_calm knows calm
      next => exact written_line

open Peephole in
theorem respects_foldl_add {written lines : List Line} {sense : Sense}
    (respects : Respects false lands .accumulator written.reverse)
    (alike : (written.reverse.foldl Sense.next .accumulator).Alike sense)
    (rest : Respects strict lands sense lines) :
    Respects false lands .accumulator (lines.foldl add written).reverse ∧
      ((lines.foldl add written).reverse.foldl Sense.next .accumulator).Alike
        (lines.foldl Sense.next sense) := by
  induction lines generalizing written sense with
  | nil => exact ⟨respects, alike⟩
  | cons line lines ih =>
    obtain ⟨respectsNext, alikeNext⟩ := respects_add respects alike rest.1
    exact ih respectsNext alikeNext rest.2

open Peephole in
/-- Lines that are written stay, unless the last of them is a push. -/
theorem suffix_add {written front : List Line} {last : Line} (line : Line)
    (kept : last.mnemonic? ≠ some .pha) (behind : last :: written <:+ front) :
    last :: written <:+ add front line := by
  cases front with
  | nil => exact absurd (List.suffix_nil.mp behind) (by simp)
  | cons head front =>
    simp only [add]
    split
    next redundant =>
      rcases List.suffix_cons_iff.mp behind with same | later
      · obtain ⟨rfl, -⟩ := List.cons.inj same
        exact absurd (mnemonics_of_isPushPull redundant).1 kept
      · exact later
    next =>
      split
      next => exact behind
      next => exact behind.trans (List.suffix_cons line _)

open Peephole in
theorem suffix_foldl_add {written front : List Line} {last : Line} (lines : List Line)
    (kept : last.mnemonic? ≠ some .pha) (behind : last :: written <:+ front) :
    last :: written <:+ lines.foldl add front := by
  induction lines generalizing front with
  | nil => exact behind
  | cons line lines ih => exact ih (suffix_add line kept behind)

open Peephole in
theorem add_label (written : List Line) (symbol : Symbol) :
    add written (.label symbol) = .label symbol :: written := by
  cases written with
  | nil => rfl
  | cons last written => cases last <;> rfl

open Peephole in
theorem LandsIn.optimize {symbol : Symbol} (lands : LandsIn code symbol) :
    LandsIn (optimize code) symbol := by
  obtain ⟨outcome, line, settles, front, back, rfl⟩ := lands
  have kept : line.mnemonic? ≠ some .pha := by
    intro push
    simp [Line.settles, push, Mnemonic.settles] at settles
  refine ⟨outcome, line, settles, ?_⟩
  have stays := suffix_foldl_add back kept
    (List.suffix_refl (line :: .label symbol :: front.foldl add []))
  have begun := List.reverse_prefix.mpr stays
  rw [List.reverse_cons, List.reverse_cons, List.append_assoc] at begun
  rw [Peephole.optimize, List.foldl_append, List.foldl_append, List.foldl_cons, List.foldl_cons,
    List.foldl_nil, add_label]
  exact (List.suffix_append _ _).isInfix.trans begun.isInfix

/-- Steady code whose jumps stay inside, and tables without instructions. -/
structure SteadyBody (strict : Bool) (body : Body) : Prop where
  code : Steady strict (LandsIn body.code) body.code
  data : body.data.all Line.isCalm = true

theorem SteadyBody.of_calm {data : List Line} (calm : code.all Line.isCalm = true)
    (tables : data.all Line.isCalm = true) : SteadyBody strict { code, data } :=
  ⟨steady_of_calm calm, tables⟩

theorem SteadyBody.copy {body : Body} (steady : SteadyBody strict body) (host : Symbol) (n : Nat) :
    SteadyBody strict (splice (copyPlace host n) body) := by
  refine ⟨steady.code.copy host n, ?_⟩
  rw [splice, List.all_map, List.all_eq_true]
  intro line member
  have calm := List.all_eq_true.mp steady.data line member
  rwa [Function.comp_apply, Line.isCalm, mnemonic?_relabel]

theorem SteadyBody.optimizeBody {body : Body} {optimize : Bool}
    (steady : SteadyBody (!optimize) body) :
    SteadyBody (!optimize) (optimizeBody optimize body) := by
  cases optimize with
  | false => exact steady
  | true =>
    have start : Respects false (LandsIn body.code) .accumulator ([] : List Line).reverse := trivial
    obtain ⟨respects, alike⟩ := respects_foldl_add start (.inl rfl) steady.code.respects
    refine ⟨?_, steady.data⟩
    exact (Steady.mk respects (alike.knows steady.code.knows)).mono fun symbol lands =>
      lands.optimize

end Closure

namespace Site

variable {site : Site} {strict : Bool} {labels : Nat} {lands : Symbol → Prop}

theorem steady_evaluated {fragment : Fragment} (evaluated : Evaluated site labels fragment) :
    SteadyBody strict { code := fragment.code, data := fragment.data } := by
  cases evaluated <;> exact .of_calm rfl rfl

theorem steady_passes {code : List Line} (passes : site.Passes code) :
    Steady strict lands code := by
  obtain ⟨moves, -, rfl⟩ := passes
  apply steady_of_calm
  simp [storeLines, Mnemonic.isCalm, Mnemonic.settles, Mnemonic.isQuiet, Mnemonic.testsZero]

theorem steady_resultLines (callee : Subroutine) : Steady strict lands (resultLines callee) := by
  apply steady_of_calm
  unfold resultLines
  split <;> rfl

theorem steady_called {fragment : Fragment} {callee : Subroutine}
    (inlined : ∀ body, callee.intrinsic? = some .alwaysInline → callee.body? = some body →
      SteadyBody strict body)
    (called : Called site labels callee fragment) :
    SteadyBody strict { code := fragment.code, data := fragment.data } := by
  cases called with
  | @store symbol strobe stack marked => cases strobe <;> exact .of_calm rfl rfl
  | @register register stack marked => cases register <;> exact .of_calm rfl rfl
  | load marked => exact .of_calm rfl rfl
  | evaluated evaluated => exact steady_evaluated evaluated
  | @inlined body passing stack marked present passes =>
    have copied := (inlined body marked present).copy site.subroutine.label (labels + 1)
    have wider := copied.code.mono fun symbol lands => lands.mono (List.infix_append passing _
      (resultLines callee))
    exact ⟨((steady_passes passes).append wider).append (steady_resultLines callee), copied.data⟩
  | jumped kept apart passes =>
    exact ⟨((steady_passes passes).append (steady_of_calm rfl)).append
      (steady_resultLines callee), rfl⟩

theorem landsIn_numbered {code : List Line} {stem : String} {n : Nat} {byte : UInt8}
    (outcome : stem ∈ outcomeStems)
    (inside : [.label (site.numberedLabel stem n), .immediate .lda byte] <:+: code) :
    LandsIn code (site.numberedLabel stem n) := by
  refine ⟨⟨⟨site.subroutine.label, .numbered stem n, []⟩, ⟨stem, outcome, n, rfl⟩, ?_⟩, _, rfl,
    inside⟩
  simp [numberedLabel, Name.render, Mark.render, String.append_assoc]

/-- The branches of a comparison go to where a zero or a one is loaded. -/
theorem steady_outcome {stem : String} {opcode : Code.Opcode} {branches : List (Mnemonic × Bool)}
    (kind : (opcode, stem, branches) ∈
      [(Code.Opcode.compareGreater, "Cgt", [(Mnemonic.beq, false), (.bcs, true)]),
        (.compareEqual, "Ceq", [(.beq, true)]), (.compareLess, "Clt", [(.bcc, true)])])
    (onFalse : lands (site.numberedLabel (stem ++ "False") (labels + 1)))
    (onTrue : lands (site.numberedLabel (stem ++ "True") (labels + 2))) :
    Steady strict lands
      (.direct .cmp (Memory.temporary 0) :: site.outcomeLines stem branches labels) := by
  have starts : Steady strict lands
      (.direct .cmp (Memory.temporary 0) :: (branches.map fun branch => Line.direct branch.1
        (if branch.2 then site.numberedLabel (stem ++ "True") (labels + 2)
          else site.numberedLabel (stem ++ "False") (labels + 1))) ++
      [.label (site.numberedLabel (stem ++ "False") (labels + 1)), .immediate .lda 0,
        .direct .beq (site.numberedLabel (stem ++ "End") (labels + 3))]) := by
    simp only [List.mem_cons, List.not_mem_nil, or_false, Prod.mk.injEq] at kind
    rcases kind with ⟨-, rfl, rfl⟩ | ⟨-, rfl, rfl⟩ | ⟨-, rfl, rfl⟩
    · exact ⟨⟨.of_idle rfl, .of_landing onFalse rfl fun _ => rfl,
        .of_landing onTrue rfl fun tests => absurd tests (by decide), .of_idle rfl, .of_idle rfl,
        .of_fresh _, trivial⟩, rfl⟩
    · exact ⟨⟨.of_idle rfl, .of_landing onTrue rfl fun _ => rfl, .of_idle rfl,
        .of_idle rfl, .of_fresh _, trivial⟩, rfl⟩
    · exact ⟨⟨.of_idle rfl, .of_landing onTrue rfl fun _ => rfl, .of_idle rfl,
        .of_idle rfl, .of_fresh _, trivial⟩, rfl⟩
  have ends : Steady strict lands
      [.label (site.numberedLabel (stem ++ "True") (labels + 2)), .immediate .lda 1,
        .label (site.numberedLabel (stem ++ "End") (labels + 3)), .op .pha] :=
    steady_of_calm rfl
  have whole := starts.append ends
  simpa [outcomeLines] using whole

theorem infix_outcomeLines (stem : String) (branches : List (Mnemonic × Bool)) (front : List Line) :
    [.label (site.numberedLabel (stem ++ "False") (labels + 1)), .immediate .lda 0] <:+:
        front ++ site.outcomeLines stem branches labels ∧
      [.label (site.numberedLabel (stem ++ "True") (labels + 2)), .immediate .lda 1] <:+:
        front ++ site.outcomeLines stem branches labels := by
  let branching := branches.map fun branch => Line.direct branch.1
    (if branch.2 then site.numberedLabel (stem ++ "True") (labels + 2)
      else site.numberedLabel (stem ++ "False") (labels + 1))
  constructor
  · exact ⟨front ++ branching, _, by simp [outcomeLines, branching]; rfl⟩
  · exact ⟨front ++ branching ++ [.label (site.numberedLabel (stem ++ "False") (labels + 1)),
      .immediate .lda 0, .direct .beq (site.numberedLabel (stem ++ "End") (labels + 3))], _,
      by simp [outcomeLines, branching]; rfl⟩

theorem steady_storeFieldLines {index size offset : Nat} {code : List Line}
    (made : site.storeFieldLines index size offset = .ok code) : Steady strict lands code := by
  rcases storeFieldLines_eq_ok made with ⟨-, rfl⟩ | ⟨-, rfl⟩ | ⟨-, -, rfl⟩
  · exact steady_of_calm rfl
  · exact steady_of_calm rfl
  · -- The stack pointer and the address pass through the flag before the accumulator is set.
    have address : Steady strict lands
        [.op .tsx, .on .ldy .indexedX (.byte (UInt8.ofNat (size + 1))), .op .tya, .op .tax] :=
      ⟨⟨.of_idle rfl, .of_idle rfl, .of_idle rfl, .of_idle rfl, trivial⟩, rfl⟩
    refine (address.append (steady_of_calm ?_)).append (steady_of_calm rfl)
    simp [Mnemonic.isCalm, Mnemonic.settles, Mnemonic.isQuiet, Mnemonic.testsZero]

theorem steady_lowered {fragment : Fragment} {index : Nat} {instruction : Code.Instruction}
    {stack : Code.EvalStack}
    (inlined : ∀ id callee body, site.types.subroutine? id = some callee →
      callee.intrinsic? = some .alwaysInline → callee.body? = some body → SteadyBody strict body)
    (lowered : Lowered site index labels instruction stack fragment) :
    SteadyBody strict { code := fragment.code, data := fragment.data } := by
  cases lowered with
  | storeField member reach address lines => exact ⟨steady_storeFieldLines lines, rfl⟩
  | @compare opcode operand stem branches top second stack kind byte secondByte =>
    have outcomes : ∀ part ∈ ["False", "True"], stem ++ part ∈ outcomeStems := by
      simp only [List.mem_cons, List.not_mem_nil, or_false, Prod.mk.injEq] at kind
      rcases kind with ⟨-, rfl, -⟩ | ⟨-, rfl, -⟩ | ⟨-, rfl, -⟩ <;> decide
    obtain ⟨onFalse, onTrue⟩ := @infix_outcomeLines site labels stem branches
      (pullOperands ++ [.direct .cmp (Memory.temporary 0)])
    rw [List.append_assoc] at onFalse onTrue ⊢
    refine ⟨Steady.append (steady_of_calm rfl) (steady_outcome kind ?_ ?_), rfl⟩
    · exact landsIn_numbered (outcomes "False" (by simp)) onFalse
    · exact landsIn_numbered (outcomes "True" (by simp)) onTrue
  | @branchOn opcode mnemonic target top stack kind byte =>
    simp only [List.mem_cons, List.not_mem_nil, or_false, Prod.mk.injEq] at kind
    rcases kind with ⟨-, rfl⟩ | ⟨-, rfl⟩ <;>
      exact ⟨⟨⟨.of_idle rfl, .of_fresh _, trivial⟩, rfl⟩, rfl⟩
  | call found made =>
    exact steady_called (fun body => inlined _ _ body found) (called_of_call made)
  | fieldAddress member reach address =>
    refine .of_calm ?_ rfl
    split <;> rfl
  | arithmetic kind byte secondByte =>
    refine .of_calm ?_ rfl
    simp only [List.mem_cons, List.not_mem_nil, or_false, Prod.mk.injEq] at kind
    rcases kind with ⟨-, rfl, rfl⟩ | ⟨-, rfl, rfl⟩ <;> rfl
  | _ =>
    refine .of_calm ?_ rfl
    simp [loadLines, storeLines, Mnemonic.isCalm, Mnemonic.settles, Mnemonic.isQuiet,
      Mnemonic.testsZero]

theorem steady_row
    (inlined : ∀ id callee body, site.types.subroutine? id = some callee →
      callee.intrinsic? = some .alwaysInline → callee.body? = some body → SteadyBody strict body)
    {pieces : List (Action × Fragment)} {last : Nat} (row : site.Row labels pieces last) :
    SteadyBody strict
      { code := pieces.flatMap site.pieceCode
        data := pieces.flatMap fun piece => piece.2.data } := by
  induction row with
  | nil => exact .of_calm rfl rfl
  | @cons labels action fragment pieces last performed rest ih =>
    have targets : Steady strict
        (LandsIn (((action, fragment) :: pieces).flatMap site.pieceCode))
        (site.actionLabels (Code.targets site.subroutine.instructions) action) := by
      apply steady_of_calm
      simp [actionLabels]
    have here : SteadyBody strict { code := fragment.code, data := fragment.data } := by
      cases performed with
      | compiled found lowered => exact steady_lowered inlined lowered
      | executed evaluated => exact steady_evaluated evaluated
    rw [List.flatMap_cons] at targets ⊢
    refine ⟨(targets.append (here.code.mono fun symbol lands => lands.mono ?_)).append
      (ih.code.mono fun symbol lands => lands.mono (List.suffix_append _ _).isInfix), ?_⟩
    · exact List.infix_append _ fragment.code _
    · rw [List.flatMap_cons, List.all_append, here.data, ih.data]
      rfl

theorem steady_of_compile {body : Body}
    (inlined : ∀ id callee body, site.types.subroutine? id = some callee →
      callee.intrinsic? = some .alwaysInline → callee.body? = some body → SteadyBody strict body)
    (compiled : site.compile = .ok body) : SteadyBody strict body := by
  obtain ⟨pieces, last, row, -, code, data⟩ := row_of_compile compiled
  have steady := steady_row inlined row
  rwa [← code, ← data] at steady

end Site

/-- Every body that is not taken over is steady, and strictly so where no rules were applied. -/
theorem steady_of_compiles {types : TypeTable} {memory : Memory.Map} {library : Library}
    {optimize : Bool} {done : List SubroutineId} {bodies : Bodies} (wellFormed : types.WellFormed)
    (ran : Compiles types memory library optimize done bodies) {id : SubroutineId}
    {subroutine : Subroutine} {body : Body} (found : types.subroutine? id = some subroutine)
    (present : bodies id = some body)
    (own : ∀ implementation, subroutine.intrinsic? ≠ some (.useProvided implementation)) :
    SteadyBody (!optimize) body := by
  refine ran.forall_body (motive := fun subroutine body =>
    (∀ implementation, subroutine.intrinsic? ≠ some (.useProvided implementation)) →
      SteadyBody (!optimize) body) wellFormed ?_ found present own
  intro subroutine body bodies found member kept before made own
  rcases subroutineBody_eq_ok kept made with
    ⟨implementation, marked, -⟩ | ⟨-, rfl⟩ | ⟨-, compiled, done, rfl⟩
  · exact absurd marked (own implementation)
  · exact .of_calm rfl rfl
  · apply SteadyBody.optimizeBody
    refine Site.steady_of_compile ?_ done
    intro id callee body calls marked bodied
    rw [Program.subroutine?_withBodies, Option.map_eq_some_iff] at calls
    obtain ⟨original, foundOriginal, rfl⟩ := calls
    rw [Subroutine.body?_withBody, wellFormed.subroutineId id original foundOriginal] at bodied
    rw [Subroutine.intrinsic?_withBody] at marked
    refine before id original body foundOriginal bodied fun implementation provided => ?_
    simp [marked] at provided

end Cartridge.Emit
