import Cartridge.Proofs.ListedCalls
import Cartridge.Proofs.Replays
import Cartridge.Proofs.TrackedHeights

/-!
Inlining is calling.

A body that is copied to where it would be called does there what a call of it does. The subroutines
that it calls in turn are run as they are compiled. What it takes of them is that sizes fit where
values go by the stack, and that all that is taken over from the library pulls what it has pushed.
-/

namespace Cartridge.Listing.Image

open Asm (Line Symbol Tidy)
open Program (Subroutine)

/-- The subroutines that a copied one and its copy make use of, by calls or as copies themselves. -/
inductive Uses (image : Image) (copied : Subroutine) (copy : List Line) : Subroutine → Prop
  | own : Uses image copied copy copied
  | called {subroutine : Subroutine} (member : subroutine ∈ image.others)
    (jumps : .direct .jsr subroutine.label ∈ copy) : Uses image copied copy subroutine
  | onward {caller subroutine : Subroutine} {body : Program.Body}
    (uses : Uses image copied copy caller) (present : caller.body? = some body)
    (member : subroutine ∈ image.others) (jumps : .direct .jsr subroutine.label ∈ body.code) :
    Uses image copied copy subroutine
  | within {caller subroutine : Subroutine} (uses : Uses image copied copy caller)
    (calls : Program.Calls image.program.types caller.id subroutine.id)
    (member : subroutine ∈ image.program.types.subroutines)
    (inline : subroutine.intrinsic? = some .alwaysInline) : Uses image copied copy subroutine

def JumpsTo (image : Image) (copied : Subroutine) (copy : List Line) (symbol : Symbol) : Prop :=
  .direct .jsr symbol ∈ copy ∨ ∃ caller body, image.Uses copied copy caller ∧
    caller.body? = some body ∧ .direct .jsr symbol ∈ body.code

theorem Uses.member {image : Image} {copied : Subroutine} {copy : List Line}
    {subroutine : Subroutine} (uses : image.Uses copied copy subroutine)
    (listed : copied ∈ image.program.types.subroutines) :
    subroutine ∈ image.program.types.subroutines := by
  cases uses with
  | own => exact listed
  | called member => exact (List.mem_filter.mp (List.mem_filter.mp member).1).1
  | onward _ _ member => exact (List.mem_filter.mp (List.mem_filter.mp member).1).1
  | within _ _ member => exact member

section Uses

variable {image : Image} {library : Asm.Library} {optimize : Bool} {program : Program}
  {bodies : Program.Bodies} {copied : Subroutine} {copy : List Line}

theorem tidy_of_uses (made : image.MadeFrom library optimize program bodies)
    (narrow : program.types.LoadsBytes)
    (fits : ∀ subroutine, image.Uses copied copy subroutine →
      Emit.Fits image.program.types image.memory library subroutine)
    {subroutine : Subroutine} {body : Program.Body}
    (member : subroutine ∈ image.program.types.subroutines)
    (uses : image.Uses copied copy subroutine) (present : subroutine.body? = some body) :
    Tidy body.code := by
  let fitting (id : SubroutineId) : Prop :=
    ∃ subroutine, image.program.types.subroutine? id = some subroutine ∧
      image.Uses copied copy subroutine
  obtain ⟨id, found⟩ := Program.mem_subroutines.mp member
  have fit : fitting id := ⟨subroutine, found, uses⟩
  rw [made.subroutine?, Option.map_eq_some_iff] at found
  obtain ⟨source, foundSource, rfl⟩ := found
  rw [Subroutine.body?_withBody, made.wellFormed.subroutineId id source foundSource] at present
  refine Emit.tidy_of_compiles made.wellFormed narrow made.ran ?_ ?_ foundSource present fit
  · rintro caller id callee ⟨calling, foundCalling, uses⟩ calls foundCallee inline
    have foundFilled : image.program.types.subroutine? id = some (callee.withBody bodies) := by
      rw [made.subroutine?, foundCallee]
      rfl
    refine ⟨_, foundFilled, uses.within ?_ (Program.mem_subroutines.mpr ⟨id, foundFilled⟩) inline⟩
    obtain ⟨source, foundSource, rfl⟩ :=
      Option.map_eq_some_iff.mp ((made.subroutine? caller).symm.trans foundCalling)
    rw [made.result, Program.calls_withBodies, Subroutine.id_withBody, Subroutine.id_withBody,
      made.wellFormed.subroutineId caller source foundSource,
      made.wellFormed.subroutineId id callee foundCallee]
    exact calls
  · rintro id subroutine ⟨filled, foundFilled, uses⟩ found
    have fits := fits filled uses
    rw [made.subroutine?, found] at foundFilled
    obtain rfl := Option.some.inj foundFilled
    rw [made.result] at fits
    exact Emit.fits_withBodies fits

/-- All that is called from a copy, directly or not, pulls what it has pushed. -/
theorem tidyOn_world (made : image.MadeFrom library optimize program bodies)
    (narrow : program.types.LoadsBytes)
    (fits : ∀ subroutine, image.Uses copied copy subroutine →
      Emit.Fits image.program.types image.memory library subroutine)
    (frame : Machine.Frame) (words : Symbol → Nat → UInt16) :
    (image.world frame words).TidyOn (image.JumpsTo copied copy) := by
  intro symbol calls code found
  obtain ⟨subroutine, member, rfl, body, present, rfl⟩ := code?_eq_some found
  have listed := (List.mem_filter.mp (List.mem_filter.mp member).1).1
  have uses : image.Uses copied copy subroutine := by
    rcases calls with jumps | ⟨caller, calling, uses, presentCalling, jumps⟩
    · exact .called member jumps
    · exact uses.onward presentCalling member jumps
  exact ⟨tidy_of_uses made narrow fits listed uses present,
    fun _ jumps => .inr ⟨subroutine, body, uses, present, jumps⟩⟩

end Uses

end Cartridge.Listing.Image

namespace Cartridge

open Asm (Line Symbol definedLabels references)
open Emit (Copies Fragment Site bodyLabels renameAt)
open Listing (Image)
open Machine (Cpu Frame State Wiring lineOf?)
open Program (Body Subroutine)

/-- A subroutine of a compiled module, and the copy of it at the first place of a call site. -/
structure Inlined (module : Source.Module) (library : Asm.Library) (image : Image) (site : Site)
    (callee : Subroutine) (body : Body) (fragment : Fragment) : Prop where
  compiled : compile module library {} = .ok image
  member : callee ∈ image.program.types.subroutines
  inline : callee.intrinsic? = some .alwaysInline
  present : callee.body? = some body
  distinct : (bodyLabels body).Nodup
  apart : ∀ symbol ∈ references (body.code ++ body.data), symbol ∉ bodyLabels body →
    ∀ own ∈ bodyLabels body, symbol ≠ own ++ "_" ++ site.numberedLabel "Inline" 1
  transferred : site.transfer 0 [] callee = .ok fragment

/-- Whether a check holds of a subroutine that the entry of a module inlines. -/
def anyInlined (module : Source.Module) (library : Asm.Library)
    (check : Image → Site → Subroutine → Body → Fragment → Bool) : Bool :=
  (compile module library {}).toOption.any fun image =>
    (image.program.types.subroutine? image.program.entry).any fun main =>
      let site : Site := ⟨image.program.types, image.memory, main⟩
      image.program.types.subroutines.any fun callee =>
        callee.intrinsic? == some .alwaysInline && callee.body?.any fun body =>
          decide (bodyLabels body).Nodup &&
          ((references (body.code ++ body.data)).all fun symbol =>
            (bodyLabels body).contains symbol || (bodyLabels body).all fun own =>
              symbol != own ++ "_" ++ site.numberedLabel "Inline" 1) &&
          (site.transfer 0 [] callee).toOption.any (check image site callee body)

theorem inlined_of_any {module : Source.Module} {library : Asm.Library}
    {check : Image → Site → Subroutine → Body → Fragment → Bool}
    (passed : anyInlined module library check = true) :
    ∃ image site callee body fragment, Inlined module library image site callee body fragment ∧
      check image site callee body fragment = true := by
  obtain ⟨image, compiled, facts⟩ := exists_of_any passed
  obtain ⟨main, -, facts⟩ := (Option.any_eq_true _ _).mp facts
  obtain ⟨callee, member, facts⟩ := List.any_eq_true.mp facts
  obtain ⟨inline, facts⟩ := Bool.and_eq_true_iff.mp facts
  obtain ⟨body, present, facts⟩ := (Option.any_eq_true _ _).mp facts
  obtain ⟨facts, transferred⟩ := Bool.and_eq_true_iff.mp facts
  obtain ⟨distinct, apart⟩ := Bool.and_eq_true_iff.mp facts
  obtain ⟨fragment, transferred, checked⟩ := exists_of_any transferred
  refine ⟨image, _, callee, body, fragment, ⟨compiled, member, beq_iff_eq.mp inline, present,
    of_decide_eq_true distinct, ?_, transferred⟩, checked⟩
  intro symbol refers outside own mine
  have known := List.all_eq_true.mp apart symbol refers
  simp only [Bool.or_eq_true, List.contains_iff_mem, outside, false_or, List.all_eq_true] at known
  exact bne_iff_ne.mp (known own mine)

/-- The stack of a console at the top of its memory. -/
def Listing.Image.stack (image : Image) : Frame :=
  { wiring := image.console, base := 0xFF, depth := 16 }

/-- The world of an image with that stack, where calls leave the number of their line. -/
def Listing.Image.stage (image : Image) : Machine.World :=
  image.world image.stack (image.words .ofNat)

def Machine.Cpu.ready (level : UInt8) : Cpu :=
  { Cpu.filled 1 with s := level }

theorem admits_stack (image : Image) : image.stack.Admits (.ready 0xFF) := by
  let bare : Frame := { wiring := .console fun _ => 0, base := 0xFF, depth := 16 }
  have cells : ∀ first < 16, ∀ second < 16, bare.stackCell first = bare.stackCell second →
      first = second := by
    decide +kernel
  have room : 2 ≤ 16 := by decide
  have shallow : 16 < 256 := by decide
  exact ⟨⟨Wiring.console_mirrored _, cells⟩, room, shallow, rfl⟩

/-- A game whose entry calls a subroutine that is inlined. -/
def inlining (step : Source.Subroutine) (others : List Source.Subroutine) : Source.Module :=
  { types :=
      [{ name := "Game"
         fields := [{ name := "Score", type := "byte", isStatic := true },
           { name := "Spare", type := "Pair", isStatic := true },
           { name := "Box", type := "Box", isStatic := true }]
         subroutines :=
           { name := "Main", isEntry := true
             instructions := [⟨"call", some (.method ⟨"Game", "Step"⟩)⟩, ⟨"ret", none⟩] } ::
           { step with intrinsic? := some .alwaysInline } :: others },
       { name := "Pair", fields := [{ name := "Left", type := "byte" },
           { name := "Right", type := "byte" }] },
       { name := "Box", fields := [{ name := "Pair", type := "Pair" }] }] }

/-- It has two returns and a call of its own. -/
def drill : Source.Module :=
  inlining
    { name := "Step"
      instructions := [⟨"ldsfld", some (.field ⟨"Game", "Score"⟩)⟩, ⟨"brtrue", some (.target 3)⟩,
        ⟨"ret", none⟩, ⟨"ldc", some (.constant 5)⟩, ⟨"call", some (.method ⟨"Game", "Tick"⟩)⟩,
        ⟨"ret", none⟩] }
    [{ name := "Tick", parameters := ["byte"]
       instructions := [⟨"ldarg", some (.argument 0)⟩,
         ⟨"stsfld", some (.field ⟨"Game", "Score"⟩)⟩, ⟨"ret", none⟩] }]

def Machine.Wiring.advance? (wiring : Wiring) (place : Nat → UInt16) (listing : List Line) :
    Nat → State → Option State
  | 0, state => some state
  | steps + 1, state =>
    (wiring.next? place listing state).bind (wiring.advance? place listing steps)

/-- A call and a copy that are run side by side: the game, how memory is wired, where the stack
begins, what stands in front of the copy, for how many lines they are run and what is compared. -/
structure Trial where
  game : Source.Module
  library : Asm.Library := {}
  cell : UInt16 → UInt16 := (Wiring.console fun _ => 0).cell
  level : UInt8 := 0xFF
  front : List Line := []
  steps : Nat
  seen : Cpu → UInt8

namespace Trial

def behind : List Line :=
  [.label "Behind", .direct .jmp "Behind"]

def callLines (image : Image) (callee : Subroutine) (body : Body) : List Line :=
  .direct .jsr callee.label :: behind ++ .label callee.label :: body.code ++ body.data ++
    image.others.flatMap Listing.subroutineLines

def copyLines (trial : Trial) (image : Image) (fragment : Fragment) : List Line :=
  trial.front ++ fragment.code ++ behind ++ fragment.data ++
    image.others.flatMap Listing.subroutineLines

/-- Memory with the addresses of an image, where labels stand for the number of their line. -/
def wiring (trial : Trial) (image : Image) (listing : List Line) : Wiring :=
  { cell := trial.cell
    address := fun symbol =>
      ((image.memory.allocations.find? fun allocation => allocation.symbol == symbol).map
        (·.address)).getD (((lineOf? listing symbol).map UInt16.ofNat).getD 0x282) }

def run? (trial : Trial) (image : Image) (listing : List Line) (first steps : Nat) : Option State :=
  (trial.wiring image listing).advance? .ofNat listing steps ⟨first, .ready trial.level⟩

/-- The call takes two lines more: the jump and the label that it jumps to. -/
def called? (trial : Trial) (image : Image) (callee : Subroutine) (body : Body) : Option State :=
  trial.run? image (callLines image callee body) 0 (trial.steps + 2)

def copied? (trial : Trial) (image : Image) (fragment : Fragment) : Option State :=
  trial.run? image (trial.copyLines image fragment) trial.front.length trial.steps

def ComesApart (trial : Trial) : Prop :=
  ∃ image site callee body fragment called copied,
    Inlined trial.game trial.library image site callee body fragment ∧
    trial.called? image callee body = some called ∧
    trial.copied? image fragment = some copied ∧ trial.seen called.cpu ≠ trial.seen copied.cpu

def comesApart (trial : Trial) : Bool :=
  anyInlined trial.game trial.library fun image _ callee body fragment =>
    (trial.called? image callee body).any fun called =>
      (trial.copied? image fragment).any fun copied =>
        trial.seen called.cpu != trial.seen copied.cpu

theorem comesApart_of_check {trial : Trial} (passed : trial.comesApart = true) :
    trial.ComesApart := by
  obtain ⟨image, site, callee, body, fragment, inlined, facts⟩ := inlined_of_any passed
  obtain ⟨called, ranCalled, facts⟩ := (Option.any_eq_true _ _).mp facts
  obtain ⟨copied, ranCopied, differs⟩ := (Option.any_eq_true _ _).mp facts
  exact ⟨image, site, callee, body, fragment, called, copied, inlined, ranCalled, ranCopied,
    bne_iff_ne.mp differs⟩

def storing : Source.Module :=
  inlining
    { name := "Step"
      instructions := [⟨"ldc", some (.constant 9)⟩, ⟨"stsfld", some (.field ⟨"Game", "Score"⟩)⟩,
        ⟨"ldsflda", some (.field ⟨"Game", "Box"⟩)⟩, ⟨"ldsfld", some (.field ⟨"Game", "Spare"⟩)⟩,
        ⟨"stfld", some (.field ⟨"Box", "Pair"⟩)⟩, ⟨"ret", none⟩] } []

def holding : Trial :=
  { game := storing, steps := 9, seen := (·.x) }

def unmirrored : Trial :=
  { game := storing, cell := id, level := 0x82, steps := 10, seen := (·.y) }

def overlaid : Trial :=
  { game := inlining
      { name := "Step"
        instructions := [⟨"ldsfld", some (.field ⟨"Game", "Score"⟩)⟩, ⟨"pop", none⟩,
          ⟨"ret", none⟩] } []
    level := 0x83, steps := 1, seen := (·.a) }

def crowded : Trial :=
  { game := inlining
      { name := "Step"
        instructions := [⟨"ldc", some (.constant 9)⟩, ⟨"ldc", some (.constant 2)⟩,
          ⟨"ldc", some (.constant 3)⟩, ⟨"add", none⟩, ⟨"add", none⟩, ⟨"pop", none⟩,
          ⟨"ret", none⟩] } []
    level := 0x84, steps := 13, seen := fun cpu => cpu.cells 0x82 }

def widened : Trial :=
  { game := inlining
      { name := "Step"
        instructions := [⟨"ldc", some (.constant 5)⟩,
          ⟨"stsfld", some (.field ⟨"Game", "Spare"⟩)⟩, ⟨"ret", none⟩] } []
    level := 0xFE, steps := 4, seen := fun cpu => cpu.cells 0x83 }

def telling : Trial :=
  { game := inlining
      { name := "Step"
        instructions := [⟨"call", some (.method ⟨"Game", "Where"⟩)⟩,
          ⟨"stsfld", some (.field ⟨"Game", "Score"⟩)⟩, ⟨"ret", none⟩] }
      [{ name := "Where", returns := "byte", intrinsic? := some (.useProvided "Where") }]
    library := { implementations := [⟨"Where", [.op .tsx, .op .txa, .op .rts]⟩] }
    steps := 6, seen := fun cpu => cpu.cells 0x82 }

def tricked : Trial :=
  { game := inlining
      { name := "Step"
        instructions := [⟨"call", some (.method ⟨"Game", "Trick"⟩)⟩, ⟨"ldc", some (.constant 5)⟩,
          ⟨"stsfld", some (.field ⟨"Game", "Score"⟩)⟩, ⟨"ret", none⟩] }
      [{ name := "Trick"
         instructions := [⟨"ldc", some (.constant 0)⟩, ⟨"ldc", some (.constant 0)⟩,
           ⟨"ret", none⟩] }]
    steps := 9, seen := fun cpu => cpu.cells 0x82 }

def moved : Trial :=
  { game := inlining
      { name := "Step"
        instructions := [⟨"ldc", some (.constant 7)⟩, ⟨"call", some (.method ⟨"Game", "Table"⟩)⟩,
          ⟨"pop", none⟩, ⟨"ret", none⟩] }
      [{ name := "Table", parameters := ["byte"], returns := "byte*"
         intrinsic? := some (.compileTime .data) }]
    steps := 1, seen := (·.a) }

def shadowed : Trial :=
  { game := drill, front := [.label "Game_Step_IL_0003_Game_Main_Inline_1"]
    steps := 4, seen := (·.a) }

end Trial

/-- A game that inlines a subroutine without a return. -/
def poke : Source.Module :=
  { types := [{ name := "Game", fields := [{ name := "Score", type := "byte", isStatic := true }]
                subroutines :=
      [{ name := "Main", isEntry := true
         instructions := [⟨"call", some (.method ⟨"Game", "Poke"⟩)⟩, ⟨"ret", none⟩] },
       { name := "Poke", intrinsic? := some .alwaysInline
         instructions := [⟨"ldc", some (.constant 1)⟩,
           ⟨"stsfld", some (.field ⟨"Game", "Score"⟩)⟩] }] }] }

end Cartridge
