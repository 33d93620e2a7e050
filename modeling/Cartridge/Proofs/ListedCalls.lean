import Cartridge.Proofs.NestedCalls
import Cartridge.Proofs.Parts

/-!
Calls in a listing.

Where code stands in a listing, a call of it that comes back is a run of the machine from the line
of the call to the line behind it: the machine jumps to the label, runs the lines that follow it
and finds its way back by the word that it has left on the stack.
-/

namespace Cartridge.Machine

open Asm (Line Symbol definedLabels)
open Emit (isReturn)

def Wiring.ComesTo (wiring : Wiring) (place : Nat → UInt16) (listing : List Line) :
    State → State → Prop :=
  Relation.ReflTransGen fun before after => wiring.next? place listing before = some after

/-- A listing in which the code of all symbols stands behind their labels, and whose calls leave
words by which they are told apart. -/
structure World.Laid (world : World) (place : Nat → UInt16) (listing : List Line) : Prop where
  distinct : (definedLabels listing).Nodup
  returns : ∀ first second, listing[first]?.bind Line.mnemonic? = some .jsr →
    listing[second]?.bind Line.mnemonic? = some .jsr → place first = place second → first = second
  stands : ∀ symbol code, world.code? symbol = some code → ∃ line,
    listing[line]? = some (.label symbol) ∧ LinesAt listing (line + 1) code ∧
    (∀ directive, .directive directive ∉ code) ∧ ∀ n, world.words symbol n = place (line + 1 + n)

section Listed

variable {wiring : Wiring} {place : Nat → UInt16} {listing : List Line} {line n limit : Nat}
  {around : Surroundings} {part : CodePart} {cpu : Cpu} {state after : State}

theorem LinesAt.getElem? {lines : List Line} {found : Line} (placed : LinesAt listing line lines)
    (here : lines[n]? = some found) : listing[line + n]? = some found := by
  obtain ⟨rest, split⟩ := placed
  rw [← List.getElem?_drop, ← split,
    List.getElem?_append_left (List.getElem?_eq_some_iff.mp here).1, here]

theorem LinesAt.lineOf? {lines : List Line} {symbol : Symbol} {target : Nat}
    (placed : LinesAt listing line lines) (distinct : (definedLabels listing).Nodup)
    (found : Machine.lineOf? lines symbol = some target) :
    Machine.lineOf? listing symbol = some (line + target) :=
  lineOf?_eq_some distinct (placed.getElem? (label_of_lineOf? found))

theorem next?_eq_step? {instruction : Asm.Instruction}
    (found : listing[state.line]? = some (.instruction instruction))
    (calls : instruction.mnemonic ≠ .jsr) (returns : instruction.mnemonic ≠ .rts) :
    wiring.next? place listing state = wiring.step? listing state := by
  obtain ⟨mnemonic, operand⟩ := instruction
  rw [Wiring.next?, found]
  cases mnemonic <;> first | rfl | contradiction

/-- A way from a line of a part is a whole call, or one line of the machine where the part stands in
a listing. -/
theorem Surroundings.Way.listed {found : Line} (distinct : (definedLabels listing).Nodup)
    (placed : LinesAt listing line part.code)
    (plain : ∀ directive, .directive directive ∉ part.code)
    (here : part.code[n]? = some found) (way : around.Way part limit n cpu found after) :
    (∃ symbol, found = .direct .jsr symbol ∧ after.line = n + 1 ∧
        around.calls symbol (part.words n) limit cpu after.cpu) ∨
      around.frame.wiring.next? place listing ⟨line + n, cpu⟩ =
        some ⟨line + after.line, after.cpu⟩ := by
  have there := placed.getElem? here
  cases way with
  | called ran => exact .inl ⟨_, rfl, rfl, ran⟩
  | passed silent =>
    right
    cases found with
    | directive directive => exact absurd (List.mem_of_getElem? here) (plain directive)
    | instruction => contradiction
    | _ =>
      rw [Wiring.next?, there]
      simp only [Wiring.step?, there]
      rfl
  | @jumped mnemonic symbol target leaves jumps goes =>
    right
    have jump := isJump_of_leaves jumps
    rw [next?_eq_step? there (by rintro rfl; contradiction) (by rintro rfl; contradiction)]
    cases leaves with
    | true =>
      have label := placed.lineOf? distinct (show lineOf? part.code symbol = some target from goes)
      simp [Wiring.step?, there, Line.direct, Line.on, jumps, label]
    | false =>
      obtain rfl := Option.some.inj goes
      simp [Wiring.step?, there, Line.direct, Line.on, jumps, Nat.add_assoc]
  | @executed instruction next stays ran careful =>
    right
    have executes : ¬ (instruction.mnemonic = .jsr ∨ instruction.mnemonic = .rts) := by
      intro transfers
      rw [execute?_of_transfers transfers] at ran
      contradiction
    rw [next?_eq_step? there (executes ∘ .inl) (executes ∘ .inr), step?_of_execute? there ran]
    rfl

theorem returnLine?_eq
    (apart : ∀ first second, listing[first]?.bind Line.mnemonic? = some .jsr →
      listing[second]?.bind Line.mnemonic? = some .jsr → place first = place second →
      first = second)
    (calls : listing[line]?.bind Line.mnemonic? = some .jsr) :
    returnLine? listing place (place line) = some (line + 1) := by
  have inside : line < listing.length := by
    by_contra outside
    rw [List.getElem?_eq_none (Nat.le_of_not_lt outside)] at calls
    contradiction
  have some : ((List.range listing.length).find? fun other =>
      listing[other]?.bind Line.mnemonic? == some .jsr && place other == place line).isSome :=
    List.find?_isSome.mpr ⟨line, List.mem_range.mpr inside, by simp [calls]⟩
  obtain ⟨other, found⟩ := Option.isSome_iff_exists.mp some
  have matched := List.find?_some found
  obtain ⟨callsOther, same⟩ := Bool.and_eq_true_iff.mp matched
  obtain rfl := apart other line (beq_iff_eq.mp callsOther) calls (beq_iff_eq.mp same)
  rw [returnLine?, found]
  rfl

end Listed

namespace World.Laid

variable {world : World} {place : Nat → UInt16} {listing : List Line} {line limit depth : Nat}

/-- Steps of code that stands in a listing are runs of the machine. -/
def Realizes (world : World) (place : Nat → UInt16) (listing : List Line) (depth : Nat) : Prop :=
  ∀ (part : CodePart) (line limit : Nat) (state after : State), LinesAt listing line part.code →
    (∀ directive, .directive directive ∉ part.code) → (∀ n, part.words n = place (line + n)) →
    (world.around depth).Steps part limit state after →
    world.frame.wiring.ComesTo place listing ⟨line + state.line, state.cpu⟩
      ⟨line + after.line, after.cpu⟩

theorem comesTo_takes {part : CodePart} {start after : State} {steps : Nat}
    (realizes : Realizes world place listing depth) (placed : LinesAt listing line part.code)
    (plain : ∀ directive, .directive directive ∉ part.code)
    (words : ∀ n, part.words n = place (line + n))
    (run : Takes ((world.around depth).Steps part limit) start steps after) :
    world.frame.wiring.ComesTo place listing ⟨line + start.line, start.cpu⟩
      ⟨line + after.line, after.cpu⟩ := by
  induction run with
  | start => exact .refl
  | next _ stepped ih => exact ih.trans (realizes _ _ _ _ _ placed plain words stepped)

theorem comesTo_call (laid : world.Laid place listing)
    (realizes : Realizes world place listing depth) {symbol : Symbol} {before after : Cpu}
    (found : listing[line]? = some (.direct .jsr symbol))
    (ran : (world.around (depth + 1)).calls symbol (place line) limit before after) :
    world.frame.wiring.ComesTo place listing ⟨line, before⟩ ⟨line + 1, after⟩ := by
  obtain ⟨code, coded, -, steps, n, inner, returns, run, pulled, -, rfl⟩ := ran
  rw [frame_around] at run pulled
  obtain ⟨start, label, placed, plain, words⟩ := laid.stands symbol code coded
  have calls : listing[line]?.bind Line.mnemonic? = some .jsr := by
    rw [found]
    rfl
  have entered : world.frame.wiring.next? place listing ⟨line, before⟩ =
      some ⟨start, world.frame.wiring.pushWord before (place line)⟩ := by
    simp [Wiring.next?, found, Line.direct, Line.on, lineOf?_eq_some laid.distinct label]
  have passed : world.frame.wiring.next? place listing
      ⟨start, world.frame.wiring.pushWord before (place line)⟩ =
        some ⟨start + 1, world.frame.wiring.pushWord before (place line)⟩ := by
    simp [Wiring.next?, Wiring.step?, label]
  have left : world.frame.wiring.next? place listing ⟨start + 1 + n, inner⟩ =
      some ⟨line + 1, { inner with s := inner.s + 2 }⟩ := by
    simp [Wiring.next?, placed.getElem? returns, Line.op, pulled,
      returnLine?_eq laid.returns calls]
  have body := comesTo_takes realizes placed plain words run
  exact .head entered (.head passed (body.tail left))

/-- All that code does in a listing, with the calls that it makes, the machine does too. -/
theorem realizes (laid : world.Laid place listing) (depth : Nat) :
    Realizes world place listing depth := by
  induction depth with
  | zero =>
    intro part line limit state after placed plain _ stepped
    obtain ⟨-, -, found, here, way⟩ := Surroundings.steps_iff.mp stepped
    rcases way.listed laid.distinct placed plain here with ⟨symbol, -, -, ran⟩ | moved
    · exact ran.elim
    · exact .single moved
  | succ depth ih =>
    intro part line limit state after placed plain words stepped
    obtain ⟨-, -, found, here, way⟩ := Surroundings.steps_iff.mp stepped
    rcases way.listed laid.distinct placed plain here with ⟨symbol, rfl, next, ran⟩ | moved
    · rw [words] at ran
      rw [next]
      exact laid.comesTo_call ih (placed.getElem? here) ran
    · exact .single moved

end World.Laid

end Cartridge.Machine

namespace Cartridge.Listing.Image

open Asm (Line Symbol definedLabels)
open Machine (LinesAt World lineOf?)

/-- The code of a subroutine in its own place. A call of the entry would start all over. -/
def code? (image : Image) (symbol : Symbol) : Option (List Line) :=
  (image.others.find? fun subroutine => subroutine.label == symbol).bind fun subroutine =>
    subroutine.body?.map (·.code)

def world (image : Image) (frame : Machine.Frame) (words : Symbol → Nat → UInt16) : World :=
  { frame, code? := image.code?, words }

def words (image : Image) (place : Nat → UInt16) (symbol : Symbol) (n : Nat) : UInt16 :=
  place ((lineOf? image.lines symbol).getD 0 + 1 + n)

theorem code?_eq_some {image : Image} {symbol : Symbol} {code : List Line}
    (found : image.code? symbol = some code) :
    ∃ subroutine ∈ image.others, subroutine.label = symbol ∧
      ∃ body, subroutine.body? = some body ∧ body.code = code := by
  obtain ⟨subroutine, stands, bodied⟩ := Option.bind_eq_some_iff.mp found
  obtain ⟨body, present, rfl⟩ := Option.map_eq_some_iff.mp bodied
  have named := List.find?_some stands
  exact ⟨subroutine, List.mem_of_find?_eq_some stands, beq_iff_eq.mp named, body, present, rfl⟩

theorem linesAt_subroutineLines {image : Image} {subroutine : Program.Subroutine}
    (member : subroutine ∈ image.others) :
    ∃ line, LinesAt image.lines line (subroutineLines subroutine) := by
  obtain ⟨front, rest, split⟩ := List.append_of_mem member
  obtain ⟨before, after, whole⟩ : ∃ before after,
      image.lines = before ++ image.others.flatMap subroutineLines ++ after := ⟨_, _, rfl⟩
  refine ⟨(before ++ front.flatMap subroutineLines).length,
    rest.flatMap subroutineLines ++ after, ?_⟩
  rw [whole, split]
  simp [List.flatMap_append, List.drop_append]

/-- A listing with distinct labels, calls that are told apart by the words that they leave, and no
tables among the lines that are called. -/
structure Runnable (image : Image) (place : Nat → UInt16) : Prop where
  distinct : (definedLabels image.lines).Nodup
  returns : ∀ first second, image.lines[first]?.bind Line.mnemonic? = some .jsr →
    image.lines[second]?.bind Line.mnemonic? = some .jsr → place first = place second →
    first = second
  plain : ∀ subroutine ∈ image.others, ∀ body, subroutine.body? = some body →
    ∀ directive, .directive directive ∉ body.code

variable {image : Image} {place : Nat → UInt16}

theorem Runnable.laid (runnable : image.Runnable place) (frame : Machine.Frame) :
    (image.world frame (image.words place)).Laid place image.lines := by
  refine ⟨runnable.distinct, runnable.returns, fun symbol code found => ?_⟩
  obtain ⟨subroutine, member, rfl, body, present, rfl⟩ := code?_eq_some found
  obtain ⟨line, placed⟩ := linesAt_subroutineLines member
  rw [subroutineLines, bodyLines, present] at placed
  have label := placed.tail.tail.head
  have code : LinesAt image.lines (line + 1 + 1 + 1) (body.code ++ body.data) :=
    placed.tail.tail.tail
  have plain := runnable.plain subroutine member body present
  refine ⟨line + 1 + 1, label, code.left, plain, fun n => ?_⟩
  change place ((lineOf? image.lines subroutine.label).getD 0 + 1 + n) = _
  rw [Machine.lineOf?_eq_some runnable.distinct label]
  rfl

/-- A call in a listing that comes back is a run of the machine. -/
theorem Runnable.comesTo (runnable : image.Runnable place) {frame : Machine.Frame}
    {symbol : Symbol} {line limit depth : Nat} {before after : Machine.Cpu}
    (found : image.lines[line]? = some (.direct .jsr symbol))
    (ran : ((image.world frame (image.words place)).around depth).calls symbol (place line) limit
      before after) :
    frame.wiring.ComesTo place image.lines ⟨line, before⟩ ⟨line + 1, after⟩ := by
  have laid := runnable.laid frame
  cases depth with
  | zero => exact ran.elim
  | succ depth => exact laid.comesTo_call (laid.realizes depth) found ran

end Cartridge.Listing.Image
