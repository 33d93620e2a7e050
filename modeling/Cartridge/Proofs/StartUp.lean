import Cartridge.Proofs.Allocation
import Cartridge.Proofs.Distinct
import Cartridge.Proofs.Fragments

/-!
What the start-up code leaves in memory.

All its loops have one shape: a label, a body without jumps and a branch back. What such a loop does
is shown once, from what one round of its body does while a number of rounds is left. Clearing is a
relation between two states of the processor that composes, so that loops which follow each other
clear the union of what each of them clears. Several addresses may select one cell; a cell stays
only if none of the cleared addresses selects it.
-/

namespace Cartridge.Machine

open Asm (Line Mnemonic Symbol Value definedLabels)
open Listing (clearDown clearExtended clearUp clearZeroPage entryPoint pages prologue)
open Memory (Ram Region)

/-- Control runs through lines of a body, from the first to behind the last. -/
def Wiring.Passes (wiring : Wiring) (code : List Line) (line : Nat) (lines : List Line) (cpu : Cpu)
    (post : Cpu → Prop) : Prop :=
  ∃ after, wiring.Reaches code ⟨line, cpu⟩ ⟨line + lines.length, after⟩ ∧ post after

section Passing

variable {wiring : Wiring} {code lines : List Line} {line : Nat} {cpu : Cpu} {post : Cpu → Prop}

theorem Wiring.Runs.passes (runs : wiring.Runs lines cpu post) (placed : LinesAt code line lines) :
    wiring.Passes code line lines cpu post := by
  obtain ⟨after, ran, holds⟩ := runs
  exact ⟨after, reaches_of_run? placed ran, holds⟩

theorem Wiring.Passes.append {more : List Line} {between : Cpu → Prop}
    (first : wiring.Passes code line lines cpu between)
    (rest : ∀ next, between next → wiring.Passes code (line + lines.length) more next post) :
    wiring.Passes code line (lines ++ more) cpu post := by
  obtain ⟨next, reachesNext, holds⟩ := first
  obtain ⟨after, reachesAfter, holdsAfter⟩ := rest next holds
  refine ⟨after, ?_, holdsAfter⟩
  rw [List.length_append, ← Nat.add_assoc]
  exact reachesNext.trans reachesAfter

theorem Wiring.Passes.mono {weaker : Cpu → Prop} (passes : wiring.Passes code line lines cpu post)
    (implies : ∀ after, post after → weaker after) :
    wiring.Passes code line lines cpu weaker := by
  obtain ⟨after, reaches, holds⟩ := passes
  exact ⟨after, reaches, implies after holds⟩

/-- A loop that branches back as long as rounds are left, at least one of them to begin with. -/
theorem passes_loop {label : Symbol} {body : List Line} {branch : Mnemonic}
    (distinct : (definedLabels code).Nodup)
    (placed : LinesAt code line (.label label :: body ++ [.direct branch label]))
    {invariant : Nat → Cpu → Prop}
    (round : ∀ left cpu, invariant (left + 1) cpu → wiring.Runs body cpu fun next =>
      invariant left next ∧ next.flags.leaves? branch = some (decide (left ≠ 0)))
    {left : Nat} (holds : invariant (left + 1) cpu) :
    wiring.Passes code line (.label label :: body ++ [.direct branch label]) cpu (invariant 0) := by
  have target := lineOf?_eq_some distinct placed.head
  induction left generalizing cpu with
  | zero =>
    refine ((round 0 cpu holds).label.passes placed.left).append ?_
    intro next ⟨done, leaves⟩
    exact ⟨next, .single (step?_branch placed.right.head leaves target), done⟩
  | succ left ih =>
    obtain ⟨next, ran, more, leaves⟩ := round (left + 1) cpu holds
    obtain ⟨after, reaches, done⟩ := ih more
    have turn : wiring.Reaches code ⟨line, cpu⟩ ⟨line + (body.length + 1), next⟩ :=
      reaches_of_run? placed.left ran
    exact ⟨after, (turn.tail (step?_branch placed.right.head leaves target)).trans reaches, done⟩

end Passing

/-- The cells that some addresses select become zero. All other cells stay as they are, and so does
all that the start-up code has set before. -/
structure Clears (wiring : Wiring) (addresses : UInt16 → Prop) (cpu after : Cpu) : Prop where
  a : after.a = cpu.a
  s : after.s = cpu.s
  interrupt : after.flags.interrupt = cpu.flags.interrupt
  decimal : after.flags.decimal = cpu.flags.decimal
  zero : ∀ address, addresses address → after.cells (wiring.cell address) = 0
  kept : ∀ cell, (∀ address, addresses address → wiring.cell address ≠ cell) →
    after.cells cell = cpu.cells cell

namespace Clears

variable {wiring : Wiring} {addresses more : UInt16 → Prop} {cpu next after : Cpu}

theorem none (absent : ∀ address, ¬addresses address) (x : UInt8) (flags : Flags)
    (interrupt : flags.interrupt = cpu.flags.interrupt)
    (decimal : flags.decimal = cpu.flags.decimal) :
    Clears wiring addresses cpu { cpu with x, flags } :=
  ⟨rfl, rfl, interrupt, decimal, fun address inside => absurd inside (absent address),
    fun _ _ => rfl⟩

theorem trans (first : Clears wiring addresses cpu next) (second : Clears wiring more next after) :
    Clears wiring (fun address => addresses address ∨ more address) cpu after := by
  refine ⟨second.a.trans first.a, second.s.trans first.s, second.interrupt.trans first.interrupt,
    second.decimal.trans first.decimal, ?_, ?_⟩
  · intro address inside
    by_cases again : ∃ other, more other ∧ wiring.cell other = wiring.cell address
    · obtain ⟨other, inMore, same⟩ := again
      rw [← same]
      exact second.zero other inMore
    · have untouched := second.kept (wiring.cell address) fun other inMore same =>
        again ⟨other, inMore, same⟩
      rcases inside with inFirst | inMore
      · exact untouched.trans (first.zero address inFirst)
      · exact second.zero address inMore
  · intro cell outside
    have kept := second.kept cell fun address inMore => outside address (.inr inMore)
    exact kept.trans (first.kept cell fun address inFirst => outside address (.inl inFirst))

theorem of_iff (clears : Clears wiring addresses cpu after)
    (same : ∀ address, addresses address ↔ more address) : Clears wiring more cpu after := by
  rwa [funext fun address => propext (same address)] at clears

theorem store {address : UInt16} (empty : cpu.a = 0) (x : UInt8) (flags : Flags)
    (interrupt : flags.interrupt = cpu.flags.interrupt)
    (decimal : flags.decimal = cpu.flags.decimal) :
    Clears wiring (· = address) cpu
      { cpu with cells := wiring.write cpu.cells address cpu.a, x, flags } := by
  refine ⟨rfl, rfl, interrupt, decimal, ?_, ?_⟩
  · rintro _ rfl
    exact (Function.update_self ..).trans empty
  · intro cell outside
    exact Function.update_of_ne (Ne.symm (outside address rfl)) _ _

end Clears

/-- The addresses that indices of the register X reach from a base. -/
def Indexed (wiring : Wiring) (base : Value) (indices : Nat → Prop) (address : UInt16) : Prop :=
  ∃ index, indices index ∧ address = wiring.indexed base (UInt8.ofNat index)

theorem Clears.add_index {wiring : Wiring} {base : Value} {indices more : Nat → Prop} {index : Nat}
    {cpu next after : Cpu} (clears : Clears wiring (Indexed wiring base indices) cpu next)
    (stored : Clears wiring (· = wiring.indexed base (UInt8.ofNat index)) next after)
    (grows : ∀ other, more other ↔ indices other ∨ other = index) :
    Clears wiring (Indexed wiring base more) cpu after := by
  refine (clears.trans stored).of_iff ?_
  intro address
  simp only [Indexed, grows, or_and_right, exists_or, exists_eq_left]

section Rounds

variable {wiring : Wiring} {cpu : Cpu} (base : Value)

/-- The lines of a round that counts up. -/
def upwards (base : Value) (length : Nat) : List Line :=
  [.on .sta .indexedX base, .op .inx] ++
    if length < 0x100 then [.immediate .cpx (UInt8.ofNat length)] else []

theorem clearUp_eq (label : Symbol) (length : Nat) :
    clearUp label base length =
      [.immediate .ldx 0] ++ (.label label :: upwards base length ++ [.direct .bne label]) := by
  unfold clearUp upwards
  split <;> rfl

theorem sub_beq_zero (first second : UInt8) : (first - second == 0) = decide (first = second) := by
  have firstBound := first.toNat_lt
  have secondBound := second.toNat_lt
  rw [Bool.eq_iff_iff, beq_iff_eq, decide_eq_true_iff, ← UInt8.toNat_inj, ← UInt8.toNat_inj,
    UInt8.toNat_sub]
  simp only [UInt8.toNat_ofNat]
  omega

theorem runs_upwards {length index : Nat} (inside : index < length) (page : length ≤ 0x100)
    (empty : cpu.a = 0) (counter : cpu.x = UInt8.ofNat index) :
    wiring.Runs (upwards base length) cpu fun next =>
      next.x = UInt8.ofNat (index + 1) ∧ next.flags.zero = decide (index + 1 = length) ∧
        Clears wiring (· = wiring.indexed base (UInt8.ofNat index)) cpu next := by
  have counted : cpu.x + 1 = UInt8.ofNat (index + 1) := by
    rw [counter, UInt8.ofNat_add]
    rfl
  rw [← counter, upwards]
  split
  next partly =>
    refine .cons rfl (.cons rfl (.cons rfl (.nil ⟨counted, ?_, .store empty _ _ rfl rfl⟩)))
    change (cpu.x + 1 - (UInt8.ofNat length).toUInt16.toUInt8 == 0) = decide (index + 1 = length)
    rw [counted, UInt8.toUInt8_toUInt16, sub_beq_zero, decide_eq_decide, ← UInt8.toNat_inj,
      UInt8.toNat_ofNat', UInt8.toNat_ofNat']
    omega
  next whole =>
    -- The counter has come to the end of the page when it is back at zero.
    refine .cons rfl (.cons rfl (.nil ⟨counted, ?_, .store empty _ _ rfl rfl⟩))
    change (cpu.x + 1 == 0) = decide (index + 1 = length)
    rw [counted, Bool.eq_iff_iff, beq_iff_eq, decide_eq_true_iff, ← UInt8.toNat_inj,
      UInt8.toNat_ofNat']
    simp only [UInt8.toNat_ofNat]
    omega

theorem runs_downwards {index : Nat} (small : index < 0x80) (empty : cpu.a = 0)
    (counter : cpu.x = UInt8.ofNat index) :
    wiring.Runs [.on .sta .indexedX base, .op .dex] cpu fun next =>
      next.x + 1 = UInt8.ofNat index ∧ next.flags.negative = decide (index = 0) ∧
        Clears wiring (· = wiring.indexed base (UInt8.ofNat index)) cpu next := by
  have sign : 0x80 ≤ cpu.x - 1 ↔ index = 0 := by
    rw [counter, UInt8.le_iff_toNat_le, UInt8.toNat_sub, UInt8.toNat_ofNat']
    simp only [UInt8.toNat_ofNat]
    omega
  rw [← counter]
  exact .cons rfl (.cons rfl (.nil ⟨UInt8.sub_add_cancel _ _, decide_eq_decide.mpr sign,
    .store empty _ _ rfl rfl⟩))

end Rounds

section Loops

variable {wiring : Wiring} {code : List Line} {line : Nat} {cpu : Cpu} {label : Symbol}
  {base : Value} {length : Nat}

theorem passes_clearUp (distinct : (definedLabels code).Nodup)
    (placed : LinesAt code line (clearUp label base length)) (present : 0 < length)
    (page : length ≤ 0x100) (empty : cpu.a = 0) :
    wiring.Passes code line (clearUp label base length) cpu
      (Clears wiring (Indexed wiring base (· < length)) cpu) := by
  let invariant (left : Nat) (next : Cpu) : Prop :=
    left ≤ length ∧ next.x = UInt8.ofNat (length - left) ∧
      Clears wiring (Indexed wiring base (· < length - left)) cpu next
  obtain ⟨rounds, rfl⟩ := Nat.exists_eq_add_one.mpr present
  have start : wiring.Runs [.immediate .ldx 0] cpu (invariant (rounds + 1)) := by
    refine .cons rfl (.nil ⟨Nat.le_refl _, ?_, .none ?_ _ _ rfl rfl⟩)
    · rw [Nat.sub_self]
      rfl
    · rintro address ⟨index, inside, -⟩
      omega
  have round : ∀ left next, invariant (left + 1) next →
      wiring.Runs (upwards base (rounds + 1)) next fun after =>
        invariant left after ∧ after.flags.leaves? .bne = some (decide (left ≠ 0)) := by
    intro left next ⟨within, counter, clears⟩
    have counted : rounds + 1 - (left + 1) + 1 = rounds + 1 - left := by omega
    have last : rounds + 1 - left = rounds + 1 ↔ left = 0 := by omega
    refine (runs_upwards base (by omega) page (clears.a.trans empty) counter).mono ?_
    intro after ⟨moved, zero, stored⟩
    rw [counted] at moved zero
    refine ⟨⟨by omega, moved, clears.add_index stored fun other => by omega⟩, ?_⟩
    rw [Flags.leaves?, zero, decide_eq_decide.mpr last, decide_not]
  rw [clearUp_eq] at placed ⊢
  refine (start.passes placed.left).append ?_
  intro next holds
  refine (passes_loop distinct placed.right round holds).mono ?_
  intro after ⟨_, _, clears⟩
  exact clears

theorem passes_clearDown (distinct : (definedLabels code).Nodup)
    (placed : LinesAt code line (clearDown label base length)) (present : 0 < length)
    (half : length ≤ 0x80) (empty : cpu.a = 0) :
    wiring.Passes code line (clearDown label base length) cpu
      (Clears wiring (Indexed wiring base (· < length)) cpu) := by
  let invariant (left : Nat) (next : Cpu) : Prop :=
    left ≤ length ∧ next.x + 1 = UInt8.ofNat left ∧
      Clears wiring (Indexed wiring base fun index => left ≤ index ∧ index < length) cpu next
  obtain ⟨rounds, rfl⟩ := Nat.exists_eq_add_one.mpr present
  have successor : ∀ count, UInt8.ofNat (count + 1) = UInt8.ofNat count + 1 :=
    fun _ => UInt8.ofNat_add _ _
  have start : wiring.Runs [.immediate .ldx (UInt8.ofNat rounds)] cpu (invariant (rounds + 1)) := by
    refine .cons rfl (.nil ⟨Nat.le_refl _, ?_, .none ?_ _ _ rfl rfl⟩)
    · rw [successor]
      exact congrArg (· + 1) (UInt8.toUInt8_toUInt16 _)
    · rintro address ⟨index, inside, -⟩
      omega
  have round : ∀ left cpu, invariant (left + 1) cpu →
      wiring.Runs [.on .sta .indexedX base, .op .dex] cpu fun after =>
        invariant left after ∧ after.flags.leaves? .bpl = some (decide (left ≠ 0)) := by
    intro left cpu ⟨within, counter, clears⟩
    rw [successor, UInt8.add_left_inj] at counter
    refine (runs_downwards base (by omega) (clears.a.trans empty) counter).mono ?_
    intro after ⟨moved, negative, stored⟩
    refine ⟨⟨by omega, moved, clears.add_index stored fun other => by omega⟩, ?_⟩
    rw [Flags.leaves?, negative, decide_not]
  change wiring.Passes code line ([_] ++ (.label label :: [_, _] ++ [_])) cpu _
  refine (start.passes placed.left).append ?_
  intro next holds
  refine (passes_loop distinct placed.right round holds).mono ?_
  intro after ⟨_, _, clears⟩
  refine clears.of_iff fun address => ?_
  simp [Indexed]

end Loops

section Regions

instance (region : Region) (address : Nat) : Decidable (region.Contains address) :=
  @instDecidableAnd _ _ (Nat.decLe _ _) (Nat.decLt _ _)

variable {wiring : Wiring} {code : List Line} {line : Nat} {cpu : Cpu}

theorem indexed_iff {base : Value} {start length : Nat}
    (placed : ∀ index < length,
      (wiring.indexed base (UInt8.ofNat index)).toNat = start + index) (address : UInt16) :
    Indexed wiring base (· < length) address ↔
      start ≤ address.toNat ∧ address.toNat < start + length := by
  constructor
  · rintro ⟨index, inside, rfl⟩
    rw [placed index inside]
    omega
  · intro ⟨above, below⟩
    refine ⟨address.toNat - start, by omega, UInt16.toNat_inj.mp ?_⟩
    rw [placed _ (by omega)]
    omega

theorem toNat_indexed_byte {start index : Nat} (inside : start + index < 0x100) :
    (wiring.indexed (.byte (UInt8.ofNat start)) (UInt8.ofNat index)).toNat = start + index := by
  rw [indexed_byte, UInt8.toNat_toUInt16, UInt8.toNat_add, UInt8.toNat_ofNat', UInt8.toNat_ofNat']
  omega

theorem toNat_indexed_word {start index : Nat} (page : index < 0x100)
    (inside : start + index < 0x10000) :
    (wiring.indexed (.word (UInt16.ofNat start)) (UInt8.ofNat index)).toNat = start + index := by
  change (UInt16.ofNat start + (UInt8.ofNat index).toUInt16).toNat = start + index
  rw [UInt16.toNat_add, UInt8.toNat_toUInt16, UInt16.toNat_ofNat', UInt8.toNat_ofNat']
  omega

theorem passes_clearZeroPage (distinct : (definedLabels code).Nodup) {region : Region}
    (placed : LinesAt code line (clearZeroPage region)) (small : region.stop.toNat ≤ 0x100)
    (empty : cpu.a = 0) :
    wiring.Passes code line (clearZeroPage region) cpu
      (Clears wiring (fun address => region.Contains address.toNat) cpu) := by
  have cleared : ∀ length address, length = region.stop.toNat - region.start.toNat →
      (Indexed wiring (.byte (UInt8.ofNat region.start.toNat)) (· < length) address ↔
        region.Contains address.toNat) := by
    rintro length address rfl
    rw [indexed_iff fun index inside => toNat_indexed_byte (by omega)]
    simp only [Region.Contains]
    omega
  revert placed
  simp only [clearZeroPage, Nat.min_eq_left small]
  split
  next none =>
    intro _
    refine ⟨cpu, .refl, .none (fun address inside => ?_) cpu.x cpu.flags rfl rfl⟩
    simp only [Region.Contains] at inside
    omega
  next some =>
    split
    next half =>
      intro placed
      refine (passes_clearDown distinct placed (by omega) half empty).mono ?_
      intro after clears
      exact clears.of_iff fun address => cleared _ address rfl
    next wide =>
      intro placed
      refine (passes_clearUp distinct placed (by omega) (by omega) empty).mono ?_
      intro after clears
      exact clears.of_iff fun address => cleared _ address rfl

/-- The pages of a region hold its addresses and no others. -/
theorem exists_mem_pages_iff {start stop address : Nat} :
    (∃ page ∈ pages start stop, page.1 ≤ address ∧ address < page.1 + page.2) ↔
      start ≤ address ∧ address < stop := by
  constructor
  · rintro ⟨page, member, above, below⟩
    have bounds := Listing.bounds_of_mem_pages member
    omega
  · rintro ⟨above, below⟩
    fun_induction pages start stop with
    | case1 start before length ih =>
      by_cases here : address < start + length
      · exact ⟨_, List.mem_cons_self, above, here⟩
      · -- A page that is not whole ends with the region, so the address is on a later one.
        have whole : ¬length < 0x100 := by
          dsimp only [length] at here ⊢
          omega
        obtain ⟨page, member, inside⟩ := ih whole (by omega)
        rw [if_neg whole]
        exact ⟨page, List.mem_cons_of_mem _ member, inside⟩
    | case2 => omega

theorem passes_clearPages (distinct : (definedLabels code).Nodup) (label : Nat → Symbol)
    {regions : List (Nat × Nat)}
    (bounds : ∀ page ∈ regions, 0 < page.2 ∧ page.2 ≤ 0x100 ∧ page.1 + page.2 ≤ 0x10000)
    (placed : LinesAt code line (regions.flatMap fun page =>
      clearUp (label page.1) (.word (UInt16.ofNat page.1)) page.2))
    (empty : cpu.a = 0) :
    wiring.Passes code line
      (regions.flatMap fun page => clearUp (label page.1) (.word (UInt16.ofNat page.1)) page.2) cpu
      (Clears wiring
        (fun address => ∃ page ∈ regions, page.1 ≤ address.toNat ∧ address.toNat < page.1 + page.2)
        cpu) := by
  induction regions generalizing line cpu with
  | nil => exact ⟨cpu, .refl, .none (by simp) cpu.x cpu.flags rfl rfl⟩
  | cons page regions ih =>
    obtain ⟨present, whole, inside⟩ := bounds page List.mem_cons_self
    have placements : ∀ index < page.2, (wiring.indexed (.word (UInt16.ofNat page.1))
        (UInt8.ofNat index)).toNat = page.1 + index :=
      fun index below => toNat_indexed_word (by omega) (by omega)
    rw [List.flatMap_cons] at placed ⊢
    refine (passes_clearUp distinct placed.left present whole empty).append ?_
    intro next first
    refine (ih (fun later member => bounds later (List.mem_cons_of_mem _ member)) placed.right
      (first.a.trans empty)).mono fun after rest => (first.trans rest).of_iff fun address => ?_
    rw [indexed_iff placements]
    simp only [List.mem_cons, exists_eq_or_imp]

theorem passes_clearExtended (distinct : (definedLabels code).Nodup) {region : Region}
    (placed : LinesAt code line (clearExtended region)) (empty : cpu.a = 0) :
    wiring.Passes code line (clearExtended region) cpu
      (Clears wiring (fun address => region.Contains address.toNat) cpu) := by
  have bounds : ∀ page ∈ pages region.start.toNat region.stop.toNat,
      0 < page.2 ∧ page.2 ≤ 0x100 ∧ page.1 + page.2 ≤ 0x10000 := by
    intro page member
    have bounds := Listing.bounds_of_mem_pages member
    have top := region.stop.toNat_lt
    omega
  refine (passes_clearPages distinct Listing.clearLabel bounds placed empty).mono ?_
  intro after clears
  exact clears.of_iff fun address => exists_mem_pages_iff

end Regions

theorem definedLabels_sublist (lines : List Line) :
    (definedLabels lines).Sublist (Asm.definedNames lines) := by
  induction lines with
  | nil => exact .slnil
  | cons line lines ih =>
    cases line with
    | label symbol => exact ih.cons_cons symbol
    | directive content =>
      cases content with
      | equate symbol address => exact ih.cons symbol
      | _ => exact ih
    | _ => exact ih

theorem nodup_definedLabels_prologue (ram : Ram) : (definedLabels (prologue ram)).Nodup := by
  have fixed : (Asm.definedNames (prologue ram)).Sublist (Listing.fixedNames ram) :=
    (List.sublist_cons_self entryPoint _).trans (List.sublist_append_right _ _)
  exact (Listing.nodup_fixedNames ram).sublist ((definedLabels_sublist _).trans fixed)

/-- The registers and flags that the start-up code sets. -/
structure Started (cpu : Cpu) : Prop where
  a : cpu.a = 0
  s : cpu.s = 0xFF
  interrupt : cpu.flags.interrupt = true
  decimal : cpu.flags.decimal = false

theorem Started.of_clears {wiring : Wiring} {addresses : UInt16 → Prop} {cpu after : Cpu}
    (started : Started cpu) (clears : Clears wiring addresses cpu after) : Started after :=
  ⟨clears.a.trans started.a, clears.s.trans started.s, clears.interrupt.trans started.interrupt,
    clears.decimal.trans started.decimal⟩

/-- The start-up code may stand anywhere in code whose labels are distinct. -/
theorem passes_prologue {wiring : Wiring} {code : List Line} {line : Nat} {ram : Ram} {cpu : Cpu}
    (distinct : (definedLabels code).Nodup) (placed : LinesAt code line (prologue ram))
    (small : ram.zeroPage.stop ≤ 0x100) :
    wiring.Passes code line (prologue ram) cpu fun after =>
      Started after ∧
      (∀ bank address, (ram.region bank).Contains address.toNat →
        after.cells (wiring.cell address) = 0) ∧
      ∀ cell, (∀ bank address, (ram.region bank).Contains address.toNat →
        wiring.cell address ≠ cell) → after.cells cell = cpu.cells cell := by
  have lead : wiring.Runs [.op .sei, .op .cld, .immediate .ldx Memory.stackTop, .op .txs,
      .immediate .lda 0] cpu fun start => start.cells = cpu.cells ∧ Started start :=
    ⟨_, rfl, rfl, rfl, rfl, rfl, rfl⟩
  have low : wiring.Passes code line
      ([.op .sei, .op .cld, .immediate .ldx Memory.stackTop, .op .txs, .immediate .lda 0] ++
        clearZeroPage ram.zeroPage) cpu fun next =>
        ∃ start, start.cells = cpu.cells ∧ Started start ∧
          Clears wiring (fun address => ram.zeroPage.Contains address.toNat) start next := by
    refine (lead.passes placed.left.left).append fun start ⟨untouched, started⟩ => ?_
    refine (passes_clearZeroPage distinct placed.left.right (UInt16.le_iff_toNat_le.mp small)
      started.a).mono fun next clears => ?_
    exact ⟨start, untouched, started, clears⟩
  refine low.append ?_
  rintro next ⟨start, untouched, started, first⟩
  refine (passes_clearExtended distinct placed.right (first.a.trans started.a)).mono ?_
  intro after second
  have clears := first.trans second
  refine ⟨started.of_clears clears, ?_, ?_⟩
  · intro bank address inside
    cases bank with
    | zeroPage => exact clears.zero address (.inl inside)
    | extended => exact clears.zero address (.inr inside)
  · intro cell outside
    rw [← untouched]
    apply clears.kept cell
    rintro address (inside | inside)
    · exact outside .zeroPage address inside
    · exact outside .extended address inside

/-- Started in any state, the machine runs to the end of the start-up code. Then the cells of both
regions of RAM are zero and all others as they were. -/
theorem prologue_clears_ram (wiring : Wiring) {ram : Ram} (small : ram.zeroPage.stop ≤ 0x100)
    (cpu : Cpu) :
    (definedLabels (prologue ram)).Nodup ∧
    ∃ after, wiring.Reaches (prologue ram) ⟨0, cpu⟩ ⟨(prologue ram).length, after⟩ ∧
      wiring.step? (prologue ram) ⟨(prologue ram).length, after⟩ = none ∧ Started after ∧
      (∀ bank address, (ram.region bank).Contains address.toNat →
        after.cells (wiring.cell address) = 0) ∧
      ∀ cell, (∀ bank address, (ram.region bank).Contains address.toNat →
        wiring.cell address ≠ cell) → after.cells cell = cpu.cells cell := by
  have distinct := nodup_definedLabels_prologue ram
  have placed : LinesAt (prologue ram) 0 (prologue ram) := List.prefix_rfl
  obtain ⟨after, reaches, cleared⟩ := passes_prologue distinct placed small
  rw [Nat.zero_add] at reaches
  refine ⟨distinct, after, reaches, ?_, cleared⟩
  simp [Wiring.step?]

/-- A wide zero page, and RAM of the cartridge that ends inside its second page. -/
def spaciousRam : Ram :=
  { zeroPage := { start := 0x40, stop := 0x100 }, extended := { start := 0xF080, stop := 0xF200 } }

theorem prologue_clears_ram_spacious :
    spaciousRam.zeroPage.stop ≤ 0x100 ∧
    ∃ after : Cpu, Wiring.Reaches ⟨id, fun _ => 0⟩ (prologue spaciousRam)
        ⟨0, ⟨1, 2, 3, 4, ⟨true, true, false, true, true, true⟩, fun _ => 0x55⟩⟩ ⟨22, after⟩ ∧
      Started after ∧ after.cells 0x3F = 0x55 ∧ after.cells 0x40 = 0 ∧ after.cells 0xFF = 0 ∧
      after.cells 0x100 = 0x55 ∧ after.cells 0xF07F = 0x55 ∧ after.cells 0xF080 = 0 ∧
      after.cells 0xF1FF = 0 ∧ after.cells 0xF200 = 0x55 := by
  have small : spaciousRam.zeroPage.stop ≤ 0x100 := by decide
  obtain ⟨-, after, reaches, -, started, zero, kept⟩ := prologue_clears_ram ⟨id, fun _ => 0⟩ small
    ⟨1, 2, 3, 4, ⟨true, true, false, true, true, true⟩, fun _ => 0x55⟩
  have length : (prologue spaciousRam).length = 22 := by decide +kernel
  rw [length] at reaches
  have outside : ∀ cell : UInt16, ¬spaciousRam.zeroPage.Contains cell.toNat →
      ¬spaciousRam.extended.Contains cell.toNat → after.cells cell = 0x55 := by
    intro cell low high
    refine kept cell fun bank address inside same => ?_
    obtain rfl : address = cell := same
    cases bank with
    | zeroPage => exact low inside
    | extended => exact high inside
  refine ⟨small, after, reaches, started, outside _ ?_ ?_, zero .zeroPage 0x40 ?_,
    zero .zeroPage 0xFF ?_, outside _ ?_ ?_, outside _ ?_ ?_, zero .extended 0xF080 ?_,
    zero .extended 0xF1FF ?_, outside _ ?_ ?_⟩
  all_goals decide

end Cartridge.Machine
