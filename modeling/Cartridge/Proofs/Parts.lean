import Cartridge.Proofs.Compilation
import Cartridge.Proofs.Splicing

/-!
The parts of a listing by where their lines come from.

What is laid out around the code is told apart from the code that starts the machine, from compiled
bodies and from routines that are taken over from a library.
-/

namespace Cartridge.Listing

open Asm (Line Symbol definedNames)
open Program (Bodies Body Subroutine)

inductive Provenance where
  | frame
  | startup
  | compiled
  | provided
  deriving DecidableEq, Repr

structure Part where
  source : Provenance
  lines : List Line
  deriving DecidableEq, Repr

/-- A body is compiled unless the library provides it. -/
def bodySource (subroutine : Subroutine) : Provenance :=
  match subroutine.intrinsic? with
  | some (.useProvided _) => .provided
  | _ => .compiled

def bodyPart (subroutine : Subroutine) : Part :=
  { source := bodySource subroutine, lines := bodyLines subroutine }

def subroutineParts (subroutine : Subroutine) : List Part :=
  [⟨.frame, [.blank, .comment subroutine.fullName, .label subroutine.label]⟩, bodyPart subroutine]

def entryParts (image : Image) : List Part :=
  match image.program.types.subroutine? image.program.entry with
  | some entry =>
    [⟨.frame, [.label entry.label]⟩, ⟨.startup, prologue image.ram⟩, bodyPart entry]
  | none => [⟨.startup, prologue image.ram⟩]

namespace Image

/-- The subroutines that follow the entry. -/
def others (image : Image) : List Subroutine :=
  image.emitted.filter fun subroutine => subroutine.id != image.program.entry

def openingLines (image : Image) : List Line :=
  [.directive (.processor Memory.processor), .directive (.header Memory.headerFile), .blank] ++
    equates image.memory ++ [.blank, .directive (.origin Memory.romOrigin), .label entryPoint]

def vectorLines : List Line :=
  [.blank, .directive (.origin Memory.vectors), .directive (.word entryPoint),
    .directive (.word entryPoint)]

def parts (image : Image) : List Part :=
  [⟨.frame, image.openingLines⟩] ++ entryParts image ++
    image.others.flatMap subroutineParts ++ [⟨.frame, vectorLines⟩]

end Image

theorem flatMap_entryParts (image : Image) :
    (entryParts image).flatMap Part.lines = entryLines image := by
  cases found : image.program.types.subroutine? image.program.entry <;>
    simp [entryParts, entryLines, found, bodyPart]

theorem flatMap_subroutineParts (subroutine : Subroutine) :
    (subroutineParts subroutine).flatMap Part.lines = subroutineLines subroutine := by
  simp [subroutineParts, subroutineLines, bodyPart]

theorem Image.lines_eq_parts (image : Image) : image.lines = image.parts.flatMap Part.lines := by
  simp only [parts, List.flatMap_append, List.flatMap_assoc, flatMap_subroutineParts,
    flatMap_entryParts, List.flatMap_cons, List.flatMap_nil, List.append_nil]
  simp only [lines, openingLines, vectorLines, others, List.append_assoc]

theorem Image.mem_parts {image : Image} {part : Part} :
    part ∈ image.parts ↔ part = ⟨.frame, image.openingLines⟩ ∨ part ∈ entryParts image ∨
      (∃ subroutine ∈ image.others, part ∈ subroutineParts subroutine) ∨
      part = ⟨.frame, vectorLines⟩ := by
  simp [parts]

namespace Image.MadeFrom

variable {image : Image} {library : Asm.Library} {optimize : Bool} {program : Program}
  {bodies : Bodies}

theorem subroutine? (made : image.MadeFrom library optimize program bodies) (id : SubroutineId) :
    image.program.types.subroutine? id =
      (program.types.subroutine? id).map (·.withBody bodies) := by
  rw [made.result, Program.subroutine?_withBodies]

theorem entry_eq (made : image.MadeFrom library optimize program bodies) :
    image.program.entry = program.entry := by
  rw [made.result]

theorem mem_emitted (made : image.MadeFrom library optimize program bodies)
    {subroutine : Subroutine} :
    subroutine ∈ image.emitted ↔ ∃ id source, program.types.subroutine? id = some source ∧
      subroutine = source.withBody bodies ∧ id ∈ image.graph.order ∧ (bodies id).isSome = true ∧
      source.intrinsic? ≠ some .alwaysInline := by
  rw [emitted, List.mem_filter, made.result, Program.subroutines_withBodies, List.mem_map]
  constructor
  · rintro ⟨⟨source, member, rfl⟩, emits⟩
    obtain ⟨id, found⟩ := Program.mem_subroutines.mp member
    have named := made.wellFormed.subroutineId id source found
    simp only [Image.emits, Bool.and_eq_true, Program.CallGraph.contains_iff, bne_iff_ne,
      Subroutine.id_withBody, Subroutine.body?_withBody, Subroutine.intrinsic?_withBody,
      named] at emits
    exact ⟨id, source, found, rfl, emits.1.1, emits.1.2, emits.2⟩
  · rintro ⟨id, source, found, rfl, contained, bodied, apart⟩
    have named := made.wellFormed.subroutineId id source found
    refine ⟨⟨source, Program.mem_subroutines.mpr ⟨id, found⟩, rfl⟩, ?_⟩
    simp only [Image.emits, Bool.and_eq_true, Program.CallGraph.contains_iff, bne_iff_ne,
      Subroutine.id_withBody, Subroutine.body?_withBody, Subroutine.intrinsic?_withBody, named]
    exact ⟨⟨contained, bodied⟩, apart⟩

theorem entryParts_eq (made : image.MadeFrom library optimize program bodies) :
    ∃ entry, program.types.subroutine? program.entry = some entry ∧ entry.isEntry = true ∧
      entryParts image = [⟨.frame, [.label entry.label]⟩, ⟨.startup, prologue image.ram⟩,
        bodyPart (entry.withBody bodies)] := by
  obtain ⟨entry, found, marked⟩ := Program.entry_of_findEntry made.wellFormed made.entry
  refine ⟨entry, found, marked, ?_⟩
  rw [entryParts, made.entry_eq, made.subroutine?, found]
  rfl

/-- The body of a part that is one. -/
theorem body_of_mem_parts (made : image.MadeFrom library optimize program bodies) {part : Part}
    (member : part ∈ image.parts) (source : part.source = .compiled ∨ part.source = .provided) :
    ∃ id subroutine, program.types.subroutine? id = some subroutine ∧
      part = bodyPart (subroutine.withBody bodies) := by
  obtain ⟨entry, found, -, entries⟩ := made.entryParts_eq
  rcases mem_parts.mp member with rfl | isEntry | ⟨other, inOthers, inside⟩ | rfl
  · simp at source
  · rw [entries] at isEntry
    simp only [List.mem_cons, List.not_mem_nil, or_false] at isEntry
    rcases isEntry with rfl | rfl | rfl
    · simp at source
    · simp at source
    · exact ⟨program.entry, entry, found, rfl⟩
  · obtain ⟨id, origin, foundOther, rfl, -⟩ := made.mem_emitted.mp (List.mem_filter.mp inOthers).1
    simp only [subroutineParts, List.mem_cons, List.not_mem_nil, or_false] at inside
    rcases inside with rfl | rfl
    · simp at source
    · exact ⟨id, origin, foundOther, rfl⟩
  · simp at source

theorem mem_definedNames {image : Image} {part : Part} {symbol : Symbol}
    (member : part ∈ image.parts) (inside : symbol ∈ definedNames part.lines) :
    symbol ∈ definedNames image.lines := by
  obtain ⟨line, inPart, defines⟩ := List.mem_filterMap.mp inside
  rw [image.lines_eq_parts]
  exact List.mem_filterMap.mpr ⟨line, List.mem_flatMap.mpr ⟨part, member, inPart⟩, defines⟩

/-- A subroutine with a place of its own is there under its label. -/
theorem label_defined (made : image.MadeFrom library optimize program bodies) {id : SubroutineId}
    {subroutine : Subroutine} (found : program.types.subroutine? id = some subroutine)
    (contained : id ∈ image.graph.order) (kept : subroutine.replacesCall = false)
    (apart : subroutine.intrinsic? ≠ some .alwaysInline) :
    subroutine.label ∈ definedNames image.lines := by
  by_cases isEntry : id = program.entry
  · obtain ⟨entry, foundEntry, -, entries⟩ := made.entryParts_eq
    rw [isEntry, foundEntry] at found
    obtain rfl := Option.some.inj found
    have member : ⟨.frame, [.label entry.label]⟩ ∈ image.parts :=
      mem_parts.mpr (.inr (.inl (by simp [entries])))
    exact mem_definedNames member (List.mem_singleton.mpr rfl)
  · have emitted : subroutine.withBody bodies ∈ image.emitted :=
      made.mem_emitted.mpr ⟨id, subroutine, found, rfl, contained,
        made.ran.isSome contained found kept, apart⟩
    have other : subroutine.withBody bodies ∈ image.others := by
      refine List.mem_filter.mpr ⟨emitted, ?_⟩
      rw [made.entry_eq, Subroutine.id_withBody,
        made.wellFormed.subroutineId id subroutine found]
      simpa using isEntry
    have member : ⟨.frame, [.blank, .comment subroutine.fullName, .label subroutine.label]⟩ ∈
        image.parts :=
      mem_parts.mpr (.inr (.inr (.inl ⟨_, other, List.mem_cons_self⟩)))
    exact mem_definedNames member (List.mem_singleton.mpr rfl)

theorem symbol_defined {allocation : Memory.Allocation}
    (allocated : allocation ∈ image.memory.allocations) :
    allocation.symbol ∈ definedNames image.lines := by
  refine mem_definedNames (mem_parts.mpr (.inl rfl)) ?_
  refine List.mem_filterMap.mpr ⟨.directive (.equate allocation.symbol allocation.address), ?_, rfl⟩
  refine List.mem_append_left _ (List.mem_append_right _ ?_)
  exact List.mem_map.mpr ⟨allocation, allocated, rfl⟩

end Image.MadeFrom

end Cartridge.Listing

namespace Cartridge

/-- A game with a table, a routine from a library, an inlined subroutine that returns in its middle,
and a static field. -/
def arcade : Source.Module :=
  { types := [{ name := "Game", fields := [{ name := "Score", type := "byte", isStatic := true }]
                subroutines :=
      [{ name := "Main", isEntry := true
         instructions :=
          [⟨"ldc", some (.constant 1)⟩, ⟨"ldc", some (.constant 2)⟩,
            ⟨"call", some (.method ⟨"Game", "Pair"⟩)⟩, ⟨"pop", none⟩,
            ⟨"call", some (.method ⟨"Game", "Probe"⟩)⟩, ⟨"call", some (.method ⟨"Game", "Settle"⟩)⟩,
            ⟨"br", some (.target 1)⟩] },
       { name := "Pair", parameters := ["byte", "byte"], returns := "byte*"
         intrinsic? := some (.compileTime .data) },
       { name := "Probe", returns := "byte", intrinsic? := some (.useProvided "Probe") },
       { name := "Settle", parameters := ["byte"], intrinsic? := some .alwaysInline
         instructions :=
          [⟨"ldarg", some (.argument 0)⟩, ⟨"brtrue", some (.target 3)⟩, ⟨"ret", none⟩,
            ⟨"ldarg", some (.argument 0)⟩, ⟨"dup", none⟩,
            ⟨"stsfld", some (.field ⟨"Game", "Score"⟩)⟩,
            ⟨"call", some (.method ⟨"Game", "Paint"⟩)⟩, ⟨"ret", none⟩] },
       { name := "Paint", parameters := ["byte"]
         intrinsic? := some (.storeToSymbol "COLUBK" false) }] }] }

def shelf : Asm.Library :=
  { implementations :=
      [⟨"Probe", [.label "Wait", .direct .lda "SWCHB", .direct .bmi "Wait", .op .rts]⟩] }

end Cartridge
