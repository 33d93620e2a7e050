import Cartridge.Proofs.BodyNames
import Cartridge.Proofs.Numerals
import Mathlib.Data.List.Infix
import Mathlib.Data.List.Perm.Basic

/-!
Which names of a listing can clash.

Names that the listing always has and names that are made up never do. What is left are the names
that come from outside: labels of subroutines, symbols of static fields, and all that a library
defines in routines that are taken over. In one body that is compiled from instructions no names
clash, whatever the subroutines are called.
-/

namespace Cartridge.Listing

open Asm (Line Symbol definedLabels definedNames definedNames_append)
open Emit (Name Named continues startsMark words)
open Program (Bodies Body Subroutine)

def clearLabel (address : Nat) : Symbol :=
  entryPoint ++ "_ClearRam_" ++ Text.hexadecimal 4 address

theorem definedNames_clearUp (label : Symbol) (base : Asm.Value) (length : Nat) :
    definedNames (clearUp label base length) = [label] := by
  unfold clearUp
  split <;> rfl

theorem definedNames_clearExtended (region : Memory.Region) :
    definedNames (clearExtended region) =
      (pages region.start.toNat region.stop.toNat).map fun page => clearLabel page.1 := by
  unfold clearExtended
  induction pages region.start.toNat region.stop.toNat with
  | nil => rfl
  | cons page pages ih =>
    rw [List.flatMap_cons, definedNames_append, definedNames_clearUp, ih]
    rfl

theorem definedNames_clearZeroPage (region : Memory.Region) :
    (definedNames (clearZeroPage region)).Sublist [entryPoint ++ "_ClearZeroPage"] := by
  unfold clearZeroPage
  simp only
  split
  next => exact List.nil_sublist _
  next =>
    split
    next => exact .refl _
    next => rw [definedNames_clearUp]

theorem mem_definedNames_prologue {ram : Memory.Ram} {name : Symbol}
    (member : name ∈ definedNames (prologue ram)) :
    name = entryPoint ++ "_ClearZeroPage" ∨ ∃ address, name = clearLabel address := by
  rw [prologue, definedNames_append, definedNames_append, definedNames_clearExtended,
    List.mem_append, List.mem_append] at member
  rcases member with (front | zeroPage) | extended
  · contradiction
  · exact .inl (List.mem_singleton.mp ((definedNames_clearZeroPage _).subset zeroPage))
  · obtain ⟨page, -, rfl⟩ := List.mem_map.mp extended
    exact .inr ⟨page.1, rfl⟩

theorem clearLabel_inj {address other : Nat} (same : clearLabel address = clearLabel other) :
    address = other := by
  have lists := congrArg String.toList same
  simp only [clearLabel, String.toList_append] at lists
  exact Text.hexadecimal_inj (String.toList_inj.mp (List.append_cancel_left lists))

theorem words_clearLabel (address : Nat) :
    words (clearLabel address) =
      words (entryPoint ++ "_" ++ "ClearRam") ++ [(Text.hexadecimal 4 address).toList] := by
  have plain : words (Text.hexadecimal 4 address) = [(Text.hexadecimal 4 address).toList] :=
    Emit.words_of_plain (Text.not_mem_hexadecimal (by decide) 4 address)
  rw [← plain, ← Emit.words_append]
  apply congrArg
  apply String.toList_inj.mp
  simp [clearLabel]

theorem clearLabel_ne (address : Nat) {name : Symbol} (short : (words name).length ≤ 4) :
    clearLabel address ≠ name := by
  rintro rfl
  rw [words_clearLabel, List.length_append] at short
  have front : (words (entryPoint ++ "_" ++ "ClearRam")).length = 4 := by decide
  simp [front] at short

/-- A name that no mark starts in continues no label. -/
def isUnmarked (name : Symbol) : Bool :=
  (words name).tails.all fun rest => !startsMark rest

theorem continues_eq_false {name : Symbol} (unmarked : isUnmarked name = true) (label : Symbol) :
    continues label name = false := by
  by_contra continued
  obtain ⟨rest, suffix, marked⟩ := Emit.continues_of_tails (Bool.of_not_eq_false continued)
  have all := List.all_eq_true.mp unmarked rest ((List.mem_tails _ _).mpr suffix)
  simp [marked] at all

theorem isUnmarked_clearLabel (address : Nat) : isUnmarked (clearLabel address) = true := by
  have noSlot : Emit.isSlotWord (Text.hexadecimal 4 address).toList = false := by
    unfold Emit.isSlotWord
    split
    next same =>
      have absent := Text.not_mem_hexadecimal (c := 'P') rfl 4 address
      simp [same] at absent
    next same =>
      have absent := Text.not_mem_hexadecimal (c := 'L') rfl 4 address
      simp [same] at absent
    next => rfl
  have front : words (entryPoint ++ "_" ++ "ClearRam") =
      [[], [], "EntryPoint".toList, "ClearRam".toList] := by
    decide
  have first : ∀ rest, startsMark ([] :: rest) = false := fun _ => rfl
  have second : ∀ rest, startsMark ("EntryPoint".toList :: rest) = false := fun _ => rfl
  have third : ∀ rest, startsMark ("ClearRam".toList :: rest) = false := fun _ => rfl
  have last : startsMark [(Text.hexadecimal 4 address).toList] = false := by
    simp [startsMark, noSlot]
  rw [isUnmarked, words_clearLabel, front]
  simp only [List.cons_append, List.nil_append, List.tails, List.all_cons, List.all_nil, first,
    second, third, last]
  rfl

/-- The names that a listing always has. -/
def fixedNames (ram : Memory.Ram) : List Symbol :=
  Memory.temporaryRequests.map Memory.Request.symbol ++ entryPoint :: definedNames (prologue ram)

theorem isUnmarked_fixedNames {ram : Memory.Ram} {name : Symbol}
    (member : name ∈ fixedNames ram) : isUnmarked name = true := by
  have temporaries : ∀ name ∈ Memory.temporaryRequests.map Memory.Request.symbol,
      isUnmarked name = true := by
    decide
  rcases List.mem_append.mp member with temporary | rest
  · exact temporaries name temporary
  · rcases List.mem_cons.mp rest with rfl | started
    · decide
    · rcases mem_definedNames_prologue started with rfl | ⟨address, rfl⟩
      · decide
      · exact isUnmarked_clearLabel address

theorem bounds_of_mem_pages {start stop : Nat} {page : Nat × Nat}
    (member : page ∈ pages start stop) :
    start ≤ page.1 ∧ 0 < page.2 ∧ page.2 ≤ 0x100 ∧ page.1 + page.2 ≤ stop := by
  fun_induction pages start stop with
  | case1 start before length ih =>
    rcases List.mem_cons.mp member with rfl | later
    · dsimp only [length]
      omega
    · split at later
      next => contradiction
      next whole =>
        have rest := ih whole later
        omega
  | case2 => contradiction

theorem nodup_pages (start stop : Nat) : ((pages start stop).map Prod.fst).Nodup := by
  fun_induction pages start stop with
  | case1 start before length ih =>
    split
    next => simp
    next whole =>
      refine List.nodup_cons.mpr ⟨fun member => ?_, ih whole⟩
      obtain ⟨page, inside, same⟩ := List.mem_map.mp member
      have bounds := bounds_of_mem_pages inside
      simp only at same
      omega
  | case2 => exact List.nodup_nil

theorem nodup_fixedNames (ram : Memory.Ram) : (fixedNames ram).Nodup := by
  have cleared : (definedNames (prologue ram)).Nodup := by
    rw [prologue, definedNames_append, definedNames_append, definedNames_clearExtended]
    refine List.nodup_append.mpr ⟨(definedNames_clearZeroPage _).nodup (by simp), ?_, ?_⟩
    · have pages := nodup_pages ram.extended.start.toNat ram.extended.stop.toNat
      have labels := pages.map fun _ _ => clearLabel_inj
      rwa [List.map_map] at labels
    · rintro name zeroPage _ extended rfl
      obtain ⟨page, -, same⟩ := List.mem_map.mp extended
      obtain rfl := List.mem_singleton.mp ((definedNames_clearZeroPage _).subset zeroPage)
      exact clearLabel_ne page.1 (by decide) same
  have short : ∀ name ∈ Memory.temporaryRequests.map Memory.Request.symbol ++ [entryPoint],
      name ∉ definedNames (prologue ram) := by
    intro name member started
    rcases mem_definedNames_prologue started with rfl | ⟨address, rfl⟩
    · revert member
      decide
    · have lengths : ∀ name ∈ Memory.temporaryRequests.map Memory.Request.symbol ++ [entryPoint],
          (words name).length ≤ 4 := by
        decide
      exact clearLabel_ne address (lengths _ member) rfl
  rw [fixedNames, List.append_cons]
  refine List.nodup_append.mpr ⟨by decide, cleared, ?_⟩
  rintro name fixed _ started rfl
  exact short name fixed started

/-- The names that the body of a subroutine defines, where it comes from a source. -/
def namesFrom (source : Provenance) (subroutine : Subroutine) : List Symbol :=
  if bodySource subroutine = source then definedNames (bodyLines subroutine) else []

theorem definedNames_bodyLines_eq (subroutine : Subroutine) :
    definedNames (bodyLines subroutine) =
      namesFrom .provided subroutine ++ namesFrom .compiled subroutine := by
  have either : bodySource subroutine = .provided ∨ bodySource subroutine = .compiled := by
    unfold bodySource
    split
    next => exact .inl rfl
    next => exact .inr rfl
  rcases either with provided | compiled
  · simp [namesFrom, provided]
  · simp [namesFrom, compiled]

def slotNames (subroutine : Subroutine) : List Name :=
  ((List.range subroutine.parameters.length).map fun n =>
    { owner := subroutine.label, mark := .parameter n }) ++
  (List.range subroutine.locals.length).map fun n =>
    { owner := subroutine.label, mark := .localSlot n }

def slotSymbols (subroutine : Subroutine) : List Symbol :=
  (Memory.subroutineRequests subroutine).map Memory.Request.symbol

theorem slotSymbols_eq (subroutine : Subroutine) :
    slotSymbols subroutine = (slotNames subroutine).map Name.render := by
  have symbol : ∀ (letter : String) (n : Nat), subroutine.label ++ ("_" ++ letter) ++
      Text.decimal n = subroutine.label ++ "_" ++ (letter ++ Text.decimal n) := by
    intro letter n
    rw [String.append_assoc, String.append_assoc, String.append_assoc]
  have numbers : ∀ {α β : Type} (types : List α) (f : Nat → β),
      types.zipIdx.map (fun entry => f entry.2) = (List.range types.length).map f := by
    intro α β types f
    rw [List.range_eq_range', ← List.zipIdx_map_snd 0 types, List.map_map]
    rfl
  rw [slotSymbols, slotNames, Memory.subroutineRequests, List.map_append, List.map_append,
    List.map_map, List.map_map, List.map_map, List.map_map, ← numbers, ← numbers]
  refine congrArg₂ _ (List.map_congr_left fun entry _ => ?_)
    (List.map_congr_left fun entry _ => ?_)
  · exact symbol "P" entry.2
  · exact symbol "L" entry.2

theorem nodup_slotNames (subroutine : Subroutine) : (slotNames subroutine).Nodup := by
  refine List.nodup_append.mpr ⟨List.nodup_range.map ?_, List.nodup_range.map ?_, ?_⟩
  · intro first second same
    simpa using same
  · intro first second same
    simpa using same
  · intro name first other second same
    obtain ⟨n, -, rfl⟩ := List.mem_map.mp first
    obtain ⟨m, -, rfl⟩ := List.mem_map.mp second
    simp at same

theorem mem_slotNames {subroutine : Subroutine} {name : Name}
    (member : name ∈ slotNames subroutine) : name.owner = subroutine.label ∧
      name.mark.isSlot = true ∧ name.copies = [] := by
  rcases List.mem_append.mp member with parameter | other
  · obtain ⟨n, -, rfl⟩ := List.mem_map.mp parameter
    exact ⟨rfl, rfl, rfl⟩
  · obtain ⟨n, -, rfl⟩ := List.mem_map.mp other
    exact ⟨rfl, rfl, rfl⟩

theorem over_of_mem_slotNames {labels : List Symbol} {subroutine : Subroutine}
    (known : subroutine.label ∈ labels) {name : Name} (member : name ∈ slotNames subroutine) :
    name.Over labels := by
  rcases List.mem_append.mp member with parameter | other
  · obtain ⟨n, -, rfl⟩ := List.mem_map.mp parameter
    exact ⟨known, trivial, rfl, by simp⟩
  · obtain ⟨n, -, rfl⟩ := List.mem_map.mp other
    exact ⟨known, trivial, rfl, by simp⟩

/-- Names that tell their subroutine are distinct where labels are. -/
theorem nodup_flatMap_of_label {subroutines : List Subroutine} {names : Subroutine → List Name}
    {place : Name → Symbol} (distinct : (subroutines.map Subroutine.label).Nodup)
    (each : ∀ subroutine ∈ subroutines, (names subroutine).Nodup)
    (placed : ∀ subroutine ∈ subroutines, ∀ name ∈ names subroutine,
      place name = subroutine.label) : (subroutines.flatMap names).Nodup := by
  refine List.nodup_flatMap.mpr ⟨each, ?_⟩
  refine (List.pairwise_map.mp distinct).imp_of_mem ?_
  intro first second inFirst inSecond differ name here there
  exact differ ((placed first inFirst name here).symm.trans (placed second inSecond name there))

theorem isSlot_eq_false_of_within {host : Symbol} {indices : List Nat} {low high : Nat}
    {name : Name} (within : name.Within host indices low high) (uncopied : name.copies = []) :
    name.mark.isSlot = false := by
  obtain ⟨-, ⟨index, -, rfl⟩ | ⟨n, number, -⟩⟩ := within
  · rfl
  · rw [Name.number?, uncopied] at number
    cases mark : name.mark <;> simp_all [Emit.Mark.isSlot]

namespace Image

/-- The subroutines whose bodies are in the listing. -/
def laidOut (image : Image) : List Subroutine :=
  (image.program.types.subroutine? image.program.entry).toList ++ image.others

/-- The subroutines for which names are made up. -/
def slotted (image : Image) : List Subroutine :=
  image.program.types.subroutines.filter (Memory.hasSlots image.graph)

def stems (image : Image) : List Symbol :=
  image.slotted.map Subroutine.label

/-- The names that come from outside: those of static fields and of subroutines, and the labels in
routines of a library. -/
def givenNames (image : Image) : List Symbol :=
  (Memory.fieldRequests image.program.types).map Memory.Request.symbol ++
    image.laidOut.map Subroutine.label ++ image.laidOut.flatMap (namesFrom .provided)

def madeNames (image : Image) : List Symbol :=
  image.slotted.flatMap slotSymbols ++ image.laidOut.flatMap (namesFrom .compiled)

/-- No two subroutines share a label, and no name goes on like one that is made up for a label. -/
def Separable (image : Image) : Prop :=
  image.stems.Nodup ∧
    ∀ stem ∈ image.stems, ∀ name ∈ image.stems ++ image.givenNames, continues stem name = false

instance (image : Image) : Decidable image.Separable :=
  inferInstanceAs (Decidable (_ ∧ _))

end Image

theorem definedNames_flatMap {α : Type} (f : α → List Line) (items : List α) :
    definedNames (items.flatMap f) = items.flatMap fun item => definedNames (f item) :=
  List.filterMap_flatMap

theorem definedNames_equates (memory : Memory.Map) :
    definedNames (equates memory) = memory.allocations.map Memory.Allocation.symbol := by
  rw [equates, definedNames, List.filterMap_map, ← List.filterMap_eq_map]
  rfl

namespace Image.MadeFrom

variable {image : Image} {library : Asm.Library} {optimize : Bool} {program : Program}
  {bodies : Bodies}

theorem slotted_eq (made : image.MadeFrom library optimize program bodies) :
    image.slotted = (program.types.subroutines.filter (Memory.hasSlots image.graph)).map
      (·.withBody bodies) := by
  rw [slotted, made.result, Program.subroutines_withBodies, List.filter_map]
  rfl

theorem fieldRequests_eq (made : image.MadeFrom library optimize program bodies) :
    Memory.fieldRequests image.program.types = Memory.fieldRequests program.types := by
  rw [made.result, Memory.fieldRequests, Program.TypeTable.withBodies, List.flatMap_map]
  rfl

theorem definedNames_equates (made : image.MadeFrom library optimize program bodies) :
    definedNames (equates image.memory) =
      Memory.temporaryRequests.map Memory.Request.symbol ++
        (Memory.fieldRequests image.program.types).map Memory.Request.symbol ++
        image.slotted.flatMap slotSymbols := by
  have slots : image.slotted.flatMap slotSymbols =
      (program.types.subroutines.filter (Memory.hasSlots image.graph)).flatMap slotSymbols := by
    rw [made.slotted_eq, List.flatMap_map]
    rfl
  have named : image.memory.allocations.map Memory.Allocation.symbol =
      (Memory.requests program.types image.graph).map Memory.Request.symbol := by
    have parts := congrArg (List.map Prod.fst) (Memory.serves_of_allocate made.memory).made
    rwa [List.map_map, List.map_map] at parts
  rw [Listing.definedNames_equates, named, Memory.requests, slots, made.fieldRequests_eq,
    List.map_append, List.map_append, List.map_flatMap]
  rfl

theorem definedNames_lines (image : Image) {entry : Subroutine}
    (present : image.program.types.subroutine? image.program.entry = some entry) :
    definedNames image.lines = definedNames (equates image.memory) ++ [entryPoint, entry.label] ++
      definedNames (prologue image.ram) ++ definedNames (bodyLines entry) ++
      image.others.flatMap fun other => other.label :: definedNames (bodyLines other) := by
  have others : (definedNames (image.others.flatMap subroutineLines)) =
      image.others.flatMap fun other => other.label :: definedNames (bodyLines other) :=
    definedNames_flatMap _ _
  have ends : definedNames vectorLines = [] := rfl
  rw [← others, lines, entryLines, present]
  change definedNames (_ ++ vectorLines) = _
  rw [definedNames_append, ends, List.append_nil]
  simp only [definedNames_append, List.append_assoc]
  rfl

/-- Every name of a listing is one that is always there, one that was given, or made up. -/
theorem definedNames_perm (made : image.MadeFrom library optimize program bodies) :
    (definedNames image.lines).Perm
      (fixedNames image.ram ++ image.givenNames ++ image.madeNames) := by
  obtain ⟨entry, found, -, -⟩ := made.entryParts_eq
  have present : image.program.types.subroutine? image.program.entry =
      some (entry.withBody bodies) := by
    rw [made.subroutine?, made.entry_eq, found]
    rfl
  have laid : image.laidOut = entry.withBody bodies :: image.others := by
    rw [laidOut, present]
    rfl
  have behind :
      (image.others.flatMap fun other => other.label :: definedNames (bodyLines other)).Perm
      (image.others.map Subroutine.label ++ (image.others.flatMap (namesFrom .provided) ++
        image.others.flatMap (namesFrom .compiled))) := by
    have bodies := List.flatMap_append_perm image.others (namesFrom .provided)
      (namesFrom .compiled)
    have labels := List.map_append_flatMap_perm image.others Subroutine.label
      fun other => definedNames (bodyLines other)
    simp only [definedNames_bodyLines_eq] at labels ⊢
    exact labels.symm.trans (.append_left _ bodies.symm)
  rw [definedNames_lines image present, made.definedNames_equates, definedNames_bodyLines_eq,
    fixedNames, givenNames, madeNames, laid]
  refine (behind.append_left _).trans (List.perm_iff_count.mpr fun symbol => ?_)
  simp only [List.count_append, List.count_cons, List.map_cons, List.flatMap_cons, List.count_nil]
  omega

theorem source_of_mem_laidOut (made : image.MadeFrom library optimize program bodies)
    {subroutine : Subroutine} (member : subroutine ∈ image.laidOut) :
    ∃ id source, program.types.subroutine? id = some source ∧
      subroutine = source.withBody bodies := by
  rcases List.mem_append.mp member with entry | other
  · rw [made.subroutine?, Option.mem_toList, Option.map_eq_some_iff] at entry
    obtain ⟨source, found, rfl⟩ := entry
    exact ⟨_, source, found, rfl⟩
  · obtain ⟨id, source, found, same, -⟩ := made.mem_emitted.mp (List.mem_filter.mp other).1
    exact ⟨id, source, found, same⟩

theorem mem_stems (made : image.MadeFrom library optimize program bodies) {id : SubroutineId}
    (contained : id ∈ image.graph.order) {subroutine : Subroutine}
    (found : program.types.subroutine? id = some subroutine)
    (kept : subroutine.replacesCall = false) : subroutine.label ∈ image.stems := by
  have slotted : subroutine.withBody bodies ∈ image.slotted := by
    rw [made.slotted_eq]
    refine List.mem_map_of_mem (List.mem_filter.mpr ⟨Program.mem_subroutines.mpr ⟨id, found⟩, ?_⟩)
    rw [Memory.hasSlots, kept, made.wellFormed.subroutineId id subroutine found,
      Program.CallGraph.contains_iff.mpr contained]
    rfl
  exact List.mem_map.mpr ⟨_, slotted, Subroutine.label_withBody _ _⟩

/-- What a body that is not taken over defines, as names. -/
theorem named_of_mem_laidOut (made : image.MadeFrom library optimize program bodies)
    {subroutine : Subroutine} (member : subroutine ∈ image.laidOut) :
    ∃ indices low high, Named image.stems subroutine.label indices low high
      (namesFrom .compiled subroutine) := by
  obtain ⟨id, source, found, rfl⟩ := made.source_of_mem_laidOut member
  have named := made.wellFormed.subroutineId id source found
  by_cases compiled : bodySource (source.withBody bodies) = .compiled
  · have own : ∀ implementation, source.intrinsic? ≠ some (.useProvided implementation) := by
      intro implementation marked
      simp [bodySource, marked] at compiled
    rw [namesFrom, if_pos compiled, bodyLines, Subroutine.body?_withBody, named]
    cases present : bodies id with
    | none => exact ⟨[], 0, 0, Emit.named_nil⟩
    | some body =>
      have plain := (Emit.linked_of_compiles made.wellFormed made.graph made.memory made.ran found
        present own).plain
      have labels : definedNames (body.code ++ body.data) = Emit.bodyLabels body := by
        rw [Asm.definedNames_of_plain plain, Emit.Site.definedLabels_append]
        rfl
      simp only [labels, Subroutine.label_withBody]
      exact Emit.named_of_compiles made.wellFormed made.ran
        (fun _ contained _ found kept => made.mem_stems contained found kept) found present own
  · rw [namesFrom, if_neg compiled]
    exact ⟨[], 0, 0, Emit.named_nil⟩

/-- Made-up names are the spellings of distinct names over the labels. -/
theorem madeNames_perm (made : image.MadeFrom library optimize program bodies)
    (distinct : image.stems.Nodup) (distinctLabels : (image.laidOut.map Subroutine.label).Nodup) :
    ∃ names : List Name, image.madeNames.Perm (names.map Name.render) ∧ names.Nodup ∧
      ∀ name ∈ names, name.Over image.stems := by
  have chosen : ∀ subroutine ∈ image.laidOut, ∃ names : List Name,
      (namesFrom .compiled subroutine).Perm (names.map Name.render) ∧ names.Nodup ∧
        ∀ name ∈ names, name.Over image.stems ∧ name.host = subroutine.label ∧
          (name.copies = [] → name.mark.isSlot = false) := by
    intro subroutine member
    obtain ⟨indices, low, high, names, renders, once, known⟩ := made.named_of_mem_laidOut member
    refine ⟨names, renders, (renders.nodup_iff.mp once).of_map, fun name inside => ?_⟩
    obtain ⟨based, within⟩ := known name inside
    exact ⟨based, within.1, isSlot_eq_false_of_within within⟩
  choose! names renders once known using chosen
  refine ⟨image.slotted.flatMap slotNames ++ image.laidOut.flatMap names, ?_,
    List.nodup_append.mpr ⟨?_, ?_, ?_⟩, ?_⟩
  · have slots : slotSymbols = fun subroutine => (slotNames subroutine).map Name.render :=
      funext slotSymbols_eq
    rw [madeNames, slots, List.map_append, List.map_flatMap, List.map_flatMap]
    exact .append_left _ (List.Perm.flatMap_left _ renders)
  · exact nodup_flatMap_of_label distinct (fun subroutine _ => nodup_slotNames subroutine)
      fun subroutine _ name member => (mem_slotNames member).1
  · exact nodup_flatMap_of_label distinctLabels once
      fun subroutine inside name member => (known subroutine inside name member).2.1
  · rintro name slot _ label rfl
    obtain ⟨first, -, inFirst⟩ := List.mem_flatMap.mp slot
    obtain ⟨second, inside, inSecond⟩ := List.mem_flatMap.mp label
    obtain ⟨-, isSlot, uncopied⟩ := mem_slotNames inFirst
    have noSlot := (known second inside name inSecond).2.2 uncopied
    simp [isSlot] at noSlot
  · intro name member
    rcases List.mem_append.mp member with slot | label
    · obtain ⟨subroutine, slotted, inside⟩ := List.mem_flatMap.mp slot
      exact over_of_mem_slotNames (List.mem_map_of_mem slotted) inside
    · obtain ⟨subroutine, laid, inside⟩ := List.mem_flatMap.mp label
      exact (known subroutine laid name inside).1

end Image.MadeFrom

end Cartridge.Listing

namespace Cartridge

open Asm Listing

/-- Two subroutines whose qualified names differ only in where the type ends. -/
def twins : Source.Module :=
  { types :=
      [{ name := "Game", subroutines :=
          [{ name := "Main", isEntry := true
             instructions :=
              [⟨"call", some (.method ⟨"A", "B_C"⟩)⟩, ⟨"call", some (.method ⟨"A_B", "C"⟩)⟩,
                ⟨"ret", none⟩] }] },
       { name := "A", subroutines := [{ name := "B_C", instructions := [⟨"ret", none⟩] }] },
       { name := "A_B", subroutines := [{ name := "C", instructions := [⟨"ret", none⟩] }] }] }

/-- No label is defined twice in a body that is compiled from instructions. -/
theorem body_labels_distinct {module : Source.Module} {library : Library} {options : Options}
    {image : Image} (compiled : compile module library options = .ok image) {id : SubroutineId}
    (contained : image.graph.contains id = true) {subroutine : Program.Subroutine}
    (found : image.program.types.subroutine? id = some subroutine)
    (walked : subroutine.walksBody = true) :
    ∃ body, subroutine.body? = some body ∧ (definedLabels (body.code ++ body.data)).Nodup := by
  obtain ⟨program, bodies, -, -, made⟩ := compile_eq_ok compiled
  rw [made.subroutine?] at found
  obtain ⟨source, declared, rfl⟩ := Option.map_eq_some_iff.mp found
  have reached := Program.CallGraph.contains_iff.mp contained
  have kept : source.replacesCall = false := Emit.replacesCall_of_walksBody walked
  have own : ∀ implementation, source.intrinsic? ≠ some (.useProvided implementation) := by
    intro implementation marked
    have unmarked := Program.CallGraph.walksBody_eq_true.mp walked
    simp [marked] at unmarked
  obtain ⟨body, present⟩ := Option.isSome_iff_exists.mp (made.ran.isSome reached declared kept)
  obtain ⟨indices, low, high, names, -, distinct, -⟩ := Emit.named_of_compiles made.wellFormed
    made.ran (fun _ contained _ found kept => made.mem_stems contained found kept) declared present
    own
  refine ⟨body, ?_, ?_⟩
  · rw [Program.Subroutine.body?_withBody, made.wellFormed.subroutineId id source declared, present]
  · rw [Emit.Site.definedLabels_append]
    exact distinct

/-- A comparison and a table, and copies inside copies, two of each. -/
def nested : Source.Module :=
  { types := [{ name := "Game", subroutines :=
      [{ name := "Main", isEntry := true
         instructions :=
          [⟨"ldc", some (.constant 1)⟩, ⟨"call", some (.method ⟨"Game", "Twice"⟩)⟩,
            ⟨"ldc", some (.constant 2)⟩, ⟨"call", some (.method ⟨"Game", "Twice"⟩)⟩,
            ⟨"ldc", some (.constant 3)⟩, ⟨"ldc", some (.constant 4)⟩,
            ⟨"call", some (.method ⟨"Game", "Pair"⟩)⟩, ⟨"pop", none⟩,
            ⟨"ldc", some (.constant 5)⟩, ⟨"ldc", some (.constant 6)⟩, ⟨"ceq", none⟩,
            ⟨"brtrue", some (.target 0)⟩, ⟨"ret", none⟩] },
       { name := "Twice", parameters := ["byte"], intrinsic? := some .alwaysInline
         instructions :=
          [⟨"ldarg", some (.argument 0)⟩, ⟨"call", some (.method ⟨"Game", "Check"⟩)⟩,
            ⟨"ldarg", some (.argument 0)⟩, ⟨"call", some (.method ⟨"Game", "Check"⟩)⟩,
            ⟨"ret", none⟩] },
       { name := "Check", parameters := ["byte"], intrinsic? := some .alwaysInline
         instructions :=
          [⟨"ldarg", some (.argument 0)⟩, ⟨"brtrue", some (.target 3)⟩, ⟨"ret", none⟩,
            ⟨"ldarg", some (.argument 0)⟩, ⟨"pop", none⟩, ⟨"ret", none⟩] },
       { name := "Pair", parameters := ["byte", "byte"], returns := "byte*"
         intrinsic? := some (.compileTime .data) }] }] }

theorem body_labels_distinct_nested :
    ∃ image main body, compile nested {} {} = .ok image ∧
      image.program.types.subroutine? image.program.entry = some main ∧ main.body? = some body ∧
      (definedLabels (body.code ++ body.data)).length = 13 ∧
      (definedLabels (body.code ++ body.data)).Nodup := by
  have passed : (compile nested {} {}).toOption.any (fun image =>
      image.graph.contains image.program.entry &&
        (image.program.types.subroutine? image.program.entry).any fun main => main.walksBody &&
          main.body?.any fun body =>
            (definedLabels (body.code ++ body.data)).length == 13) = true := by
    decide +kernel
  obtain ⟨image, compiled, facts⟩ := exists_of_any passed
  rw [Bool.and_eq_true] at facts
  obtain ⟨main, found, holds⟩ := Option.any_eq_true _ _ |>.mp facts.2
  rw [Bool.and_eq_true] at holds
  obtain ⟨body, present, distinct⟩ := body_labels_distinct compiled facts.1 found holds.1
  have count := holds.2
  rw [present, Option.any_some, beq_iff_eq] at count
  exact ⟨image, main, body, compiled, found, present, count, distinct⟩

end Cartridge
