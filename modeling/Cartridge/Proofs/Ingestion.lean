import Cartridge.Program
import Cartridge.Proofs.TableUpdates
import Mathlib.Data.List.Forall2

/-!
What holds of the subroutines of every resolved module.

A table is made of types that were resolved one by one, and so are the members of a type and the
instructions of a subroutine. What was checked of each part is therefore true of all of them.
-/

namespace Cartridge

/-- A check that a result passes is one that a value passes. -/
theorem exists_of_any {ε α : Type} {result : Except ε α} {check : α → Bool}
    (passed : result.toOption.any check = true) :
    ∃ value, result = .ok value ∧ check value = true := by
  cases result with
  | error fault => contradiction
  | ok value => exact ⟨value, rfl, passed⟩

theorem map_eq_of_forall₂ {α β γ : Type} {related : α → β → Prop} {first : List α}
    {second : List β} {function : α → γ} {other : β → γ} (all : List.Forall₂ related first second)
    (same : ∀ {item counterpart}, related item counterpart → function item = other counterpart) :
    first.map function = second.map other := by
  rw [← List.forall₂_eq_eq_eq, List.forall₂_map_left_iff, List.forall₂_map_right_iff]
  exact all.imp fun _ _ => same

end Cartridge

namespace Cartridge.Program

open Emit (bind_eq_ok pure_eq_ok)

section Traversal

variable {ε α β : Type} {f : α → Except ε β} {entries : List α} {results : List β}

theorem forall₂_of_mapM (mapped : entries.mapM f = .ok results) :
    List.Forall₂ (fun entry result => f entry = .ok result) entries results := by
  induction entries generalizing results with
  | nil =>
    obtain rfl := pure_eq_ok.mp mapped
    exact .nil
  | cons entry entries ih =>
    rw [List.mapM_cons] at mapped
    obtain ⟨first, made, next⟩ := bind_eq_ok.mp mapped
    obtain ⟨rest, mappedRest, combined⟩ := bind_eq_ok.mp next
    obtain rfl := pure_eq_ok.mp combined
    exact .cons made (ih mappedRest)

theorem exists_of_mapM (mapped : entries.mapM f = .ok results) {result : β}
    (member : result ∈ results) : ∃ entry ∈ entries, f entry = .ok result := by
  have pairs := forall₂_of_mapM mapped
  clear mapped
  induction pairs with
  | nil => contradiction
  | cons made _ ih =>
    rcases List.mem_cons.mp member with rfl | later
    · exact ⟨_, List.mem_cons_self, made⟩
    · obtain ⟨entry, inside, found⟩ := ih later
      exact ⟨entry, List.mem_cons_of_mem _ inside, found⟩

theorem exists_mapM_iff :
    (∃ results, entries.mapM f = .ok results) ↔
      ∀ entry ∈ entries, ∃ result, f entry = .ok result := by
  induction entries with
  | nil => exact ⟨fun _ _ member => absurd member List.not_mem_nil, fun _ => ⟨[], rfl⟩⟩
  | cons entry entries ih =>
    simp only [List.mapM_cons, bind_eq_ok, pure_eq_ok, List.forall_mem_cons]
    constructor
    · rintro ⟨results, first, made, rest, mapped, -⟩
      exact ⟨⟨first, made⟩, ih.mp ⟨rest, mapped⟩⟩
    · rintro ⟨⟨first, made⟩, others⟩
      obtain ⟨rest, mapped⟩ := ih.mpr others
      exact ⟨first :: rest, first, made, rest, mapped, rfl⟩

end Traversal

section Related

variable {α β : Type} {related : α → β → Prop} {first : List α} {second : List β}

theorem rel_getElem? (all : List.Forall₂ related first second) (index : Nat) :
    Option.Rel related first[index]? second[index]? := by
  induction all generalizing index with
  | nil => exact .none
  | cons head _ ih =>
    cases index with
    | zero => exact .some head
    | succ index => exact ih index

theorem rel_find? {check : α → Bool} {other : β → Bool} (all : List.Forall₂ related first second)
    (same : ∀ {item counterpart}, related item counterpart → check item = other counterpart) :
    Option.Rel related (first.find? check) (second.find? other) := by
  induction all with
  | nil => exact .none
  | @cons item counterpart _ _ head _ ih =>
    rw [List.find?_cons, List.find?_cons, ← same head]
    cases check item with
    | true => exact .some head
    | false => exact ih

theorem mapM_eq_of_forall₂ {m : Type → Type} [Monad m] [LawfulMonad m] {γ : Type}
    {function : α → m γ} {other : β → m γ} (all : List.Forall₂ related first second)
    (same : ∀ {item counterpart}, related item counterpart → function item = other counterpart) :
    first.mapM function = second.mapM other := by
  induction all with
  | nil => rfl
  | cons head _ ih => rw [List.mapM_cons, List.mapM_cons, same head, ih]

theorem forall₂_of_both {γ : Type} {source : List γ} {made : γ → α → Prop}
    {madeOther : γ → β → Prop} (all : List.Forall₂ made source first)
    (others : List.Forall₂ madeOther source second)
    (both : ∀ {origin item counterpart}, made origin item → madeOther origin counterpart →
      related item counterpart) : List.Forall₂ related first second := by
  induction all generalizing second with
  | nil =>
    cases others
    exact .nil
  | cons head _ ih =>
    cases others with
    | cons other rest => exact .cons (both head other) (ih rest)

end Related

/-- A subroutine of a module whose names were all resolved. -/
def Subroutine.Ingested (subroutine : Subroutine) : Prop :=
  ∃ module program, ofModule module = .ok program ∧ subroutine ∈ program.types.subroutines

theorem orTableFault_eq_ok {table after : TypeTable} {type : DeclaredType} :
    orTableFault (table.add type) = .ok after ↔ table.add type = .ok after := by
  cases table.add type <;> simp [orTableFault]

theorem add_eq_ok {table after : TypeTable} {type : DeclaredType}
    (added : orTableFault (table.add type) = .ok after) : after.types = table.types ++ [type] := by
  obtain ⟨-, -, rfl⟩ := TypeTable.add_eq_ok_iff.mp (orTableFault_eq_ok.mp added)
  rfl

section Table

variable {scope : Scope} {table : TypeTable}

theorem types_of_foldlM {entries : List ((Origin × ValueType) × Nat)} {start : TypeTable}
    (folded : entries.foldlM
      (fun table ((origin, value), id) => do
        orTableFault (table.add (← resolveOrigin scope id value origin))) start = .ok table) :
    ∃ added, table.types = start.types ++ added ∧
      List.Forall₂ (fun entry type => resolveOrigin scope entry.2 entry.1.2 entry.1.1 = .ok type)
        entries added := by
  induction entries generalizing start with
  | nil =>
    obtain rfl := pure_eq_ok.mp folded
    exact ⟨[], (List.append_nil _).symm, .nil⟩
  | cons entry entries ih =>
    rw [List.foldlM_cons] at folded
    obtain ⟨next, first, rest⟩ := bind_eq_ok.mp folded
    obtain ⟨type, resolved, appended⟩ := bind_eq_ok.mp first
    obtain ⟨added, types, related⟩ := ih rest
    refine ⟨type :: added, ?_, .cons resolved related⟩
    rw [types, add_eq_ok appended, List.append_assoc]
    rfl

theorem resolved_at (built : buildTable scope = .ok table) {id : TypeId} {type : DeclaredType}
    (found : table.types[id]? = some type) :
    ∃ origin value, scope.origins[id]? = some origin ∧ scope.values[id]? = some value ∧
      resolveOrigin scope id value origin = .ok type := by
  obtain ⟨added, types, related⟩ := types_of_foldlM built
  rw [types, List.nil_append] at found
  have bound := (List.getElem?_eq_some_iff.mp found).1
  have before : id < ((scope.origins.zip scope.values).zipIdx).length := by
    rwa [related.length_eq]
  have resolved := related.get before bound
  rw [List.length_zipIdx, List.length_zip] at before
  obtain ⟨inside, valued⟩ := Nat.lt_min.mp before
  refine ⟨scope.origins[id], scope.values[id], List.getElem?_eq_getElem inside,
    List.getElem?_eq_getElem valued, ?_⟩
  simpa [(List.getElem?_eq_some_iff.mp found).2] using resolved

theorem resolved_of_buildTable (built : buildTable scope = .ok table) :
    ∀ type ∈ table.types, ∃ id value origin, resolveOrigin scope id value origin = .ok type := by
  intro type member
  obtain ⟨id, found⟩ := List.getElem?_of_mem member
  obtain ⟨origin, value, -, -, resolved⟩ := resolved_at built found
  exact ⟨id, value, origin, resolved⟩

theorem ordered_of_foldlM {entries : List ((Origin × ValueType) × Nat)} {start : TypeTable}
    (ordered : start.Ordered)
    (folded : entries.foldlM
      (fun table ((origin, value), id) => do
        orTableFault (table.add (← resolveOrigin scope id value origin))) start = .ok table) :
    table.Ordered := by
  induction entries generalizing start with
  | nil =>
    obtain rfl := pure_eq_ok.mp folded
    exact ordered
  | cons entry entries ih =>
    rw [List.foldlM_cons] at folded
    obtain ⟨next, first, rest⟩ := bind_eq_ok.mp folded
    obtain ⟨type, -, added⟩ := bind_eq_ok.mp first
    exact ih (ordered.add (orTableFault_eq_ok.mp added)) rest

/-- A table is built by additions alone, so its index is in step with its types. -/
theorem ordered_of_buildTable (built : buildTable scope = .ok table) : table.Ordered :=
  ordered_of_foldlM TypeTable.ordered_empty built

end Table

theorem resolvedSubroutine_of_mem {scope : Scope} {id : TypeId} {value : ValueType}
    {origin : Origin} {type : DeclaredType}
    (resolved : resolveOrigin scope id value origin = .ok type) {subroutine : Subroutine}
    (member : subroutine ∈ type.subroutines) :
    ∃ name place source, resolveSubroutine scope name place source = .ok subroutine := by
  cases origin with
  | builtin kind =>
    obtain rfl := Except.ok.inj resolved
    contradiction
  | declared decl =>
    obtain ⟨-, -, next⟩ := bind_eq_ok.mp resolved
    obtain ⟨fields, -, more⟩ := bind_eq_ok.mp next
    obtain ⟨subroutines, mapped, made⟩ := bind_eq_ok.mp more
    obtain rfl := pure_eq_ok.mp made
    obtain ⟨⟨source, index⟩, -, found⟩ := exists_of_mapM mapped member
    exact ⟨_, _, source, found⟩

theorem Subroutine.Ingested.resolved {subroutine : Subroutine} (ingested : subroutine.Ingested) :
    ∃ scope name place source, resolveSubroutine scope name place source = .ok subroutine := by
  obtain ⟨module, program, made, member⟩ := ingested
  obtain ⟨scope, -, next⟩ := bind_eq_ok.mp made
  obtain ⟨types, built, more⟩ := bind_eq_ok.mp next
  obtain ⟨entry, -, result⟩ := bind_eq_ok.mp more
  obtain rfl := pure_eq_ok.mp result
  obtain ⟨type, declared, inside⟩ := List.mem_flatMap.mp member
  obtain ⟨id, value, origin, resolved⟩ := resolved_of_buildTable built type declared
  exact ⟨scope, resolvedSubroutine_of_mem resolved inside⟩

/-- The parts that a subroutine is made of, each resolved on its own. -/
theorem made_of_resolveSubroutine {scope : Scope} {type : String} {id : SubroutineId}
    {source : Source.Subroutine} {subroutine : Subroutine}
    (resolved : resolveSubroutine scope type id source = .ok subroutine) :
    source.parameters.mapM scope.valueType = .ok subroutine.parameters ∧
    source.locals.mapM scope.valueType = .ok subroutine.locals ∧
    scope.valueType source.returns = .ok subroutine.returns ∧
    (source.instructions.zipIdx.mapM fun (instruction, index) =>
      Resolving.instruction
        { scope, fullName := type ++ "::" ++ source.name, parameters := subroutine.parameters
          locals := subroutine.locals, length := source.instructions.length }
        index instruction) = .ok subroutine.instructions ∧
    (match source.intrinsic? with
      | some intrinsic =>
        some <$> Intrinsic.resolve (type ++ "::" ++ source.name) subroutine.parameters
          subroutine.returns intrinsic
      | none => pure none) = .ok subroutine.intrinsic? ∧
    subroutine =
      { id, name := source.name, fullName := type ++ "::" ++ source.name
        parameters := subroutine.parameters, locals := subroutine.locals
        returns := subroutine.returns, isEntry := source.isEntry, isRoot := source.isRoot
        intrinsic? := subroutine.intrinsic?, instructions := subroutine.instructions } := by
  obtain ⟨parameters, passed, next⟩ := bind_eq_ok.mp resolved
  obtain ⟨locals, kept, more⟩ := bind_eq_ok.mp next
  obtain ⟨returns, returned, further⟩ := bind_eq_ok.mp more
  obtain ⟨instructions, mapped, last⟩ := bind_eq_ok.mp further
  revert last
  cases source.intrinsic? with
  | some intrinsic =>
    intro last
    obtain ⟨intrinsic?, found, made⟩ := bind_eq_ok.mp last
    obtain rfl := pure_eq_ok.mp made
    exact ⟨passed, kept, returned, mapped, found, rfl⟩
  | none =>
    intro last
    obtain ⟨intrinsic?, found, made⟩ := bind_eq_ok.mp last
    obtain rfl := pure_eq_ok.mp made
    exact ⟨passed, kept, returned, mapped, found, rfl⟩

theorem Subroutine.Ingested.returns_size {subroutine : Subroutine} (ingested : subroutine.Ingested)
    {symbol : String} (loads : subroutine.intrinsic? = some (.loadFromSymbol symbol)) :
    subroutine.returns.size = 1 := by
  obtain ⟨scope, name, place, source, resolved⟩ := ingested.resolved
  obtain ⟨-, -, -, -, marked, -⟩ := made_of_resolveSubroutine resolved
  rw [loads] at marked
  cases written : source.intrinsic? with
  | none =>
    rw [written] at marked
    cases pure_eq_ok.mp marked
  | some intrinsic =>
    simp only [written] at marked
    cases checked : Intrinsic.resolve (name ++ "::" ++ source.name) subroutine.parameters
        subroutine.returns intrinsic with
    | error fault => simp [checked] at marked
    | ok found =>
      rw [checked] at marked
      obtain rfl := Option.some.inj (Except.ok.inj marked)
      obtain ⟨read, -, next⟩ := bind_eq_ok.mp checked
      obtain ⟨-, -, more⟩ := bind_eq_ok.mp next
      obtain ⟨_, width, made⟩ := bind_eq_ok.mp more
      obtain rfl := pure_eq_ok.mp made
      simpa [Intrinsic.checkWidth, Intrinsic.moved?] using width

theorem resolveSubroutine_eq_ok {scope : Scope} {type : String} {id : SubroutineId}
    {source : Source.Subroutine} {subroutine : Subroutine}
    (resolved : resolveSubroutine scope type id source = .ok subroutine) :
    subroutine.id = id ∧ subroutine.body? = none ∧
      ∃ resolving : Resolving, resolving.scope = scope ∧
        resolving.parameters = subroutine.parameters ∧ resolving.locals = subroutine.locals ∧
        resolving.length = subroutine.instructions.length ∧
        ∀ instruction ∈ subroutine.instructions,
          ∃ index written, resolving.instruction index written = .ok instruction := by
  obtain ⟨-, -, -, mapped, -, made⟩ := made_of_resolveSubroutine resolved
  let resolving : Resolving :=
    ⟨scope, type ++ "::" ++ source.name, subroutine.parameters, subroutine.locals,
      source.instructions.length⟩
  refine ⟨by rw [made], by rw [made], resolving, rfl, rfl, rfl, ?_, ?_⟩
  · have lengths := (forall₂_of_mapM mapped).length_eq
    rwa [List.length_zipIdx] at lengths
  · intro instruction member
    obtain ⟨⟨written, index⟩, -, found⟩ := exists_of_mapM mapped member
    exact ⟨index, written, found⟩

theorem target_lt_of_resolving {resolving : Resolving} {index target : Nat}
    {written : Source.Instruction} {instruction : Code.Instruction}
    (resolved : resolving.instruction index written = .ok instruction)
    (operand : instruction.operand = .target target) : target < resolving.length := by
  obtain ⟨given, found, next⟩ := bind_eq_ok.mp resolved
  obtain ⟨-, -, more⟩ := bind_eq_ok.mp next
  obtain ⟨-, -, made⟩ := bind_eq_ok.mp more
  obtain rfl := pure_eq_ok.mp made
  obtain rfl : given = .target target := operand
  cases given : written.operand? with
  | none => simp [Resolving.operand, given] at found
  | some source =>
    rw [given] at found
    cases source with
    | target index =>
      simp only [Resolving.operand] at found
      split at found
      next inside =>
        obtain rfl := Code.Operand.target.inj (Except.ok.inj found)
        exact inside
      next => contradiction
    | type reference =>
      obtain ⟨value, -, made⟩ := bind_eq_ok.mp found
      cases pure_eq_ok.mp made
    | field member =>
      obtain ⟨id, -, made⟩ := bind_eq_ok.mp found
      cases pure_eq_ok.mp made
    | method member =>
      obtain ⟨id, -, made⟩ := bind_eq_ok.mp found
      cases pure_eq_ok.mp made
    | constant value => cases Except.ok.inj found
    | «local» slot =>
      simp only [Resolving.operand] at found
      split at found <;> simp at found
    | argument slot =>
      simp only [Resolving.operand] at found
      split at found <;> simp at found

/-- Branches of an ingested subroutine stay inside it. -/
theorem Subroutine.Ingested.branchTarget_lt {subroutine : Subroutine}
    (ingested : subroutine.Ingested) {instruction : Code.Instruction}
    (member : instruction ∈ subroutine.instructions) {target : Nat}
    (branches : instruction.branchTarget? = some target) :
    target < subroutine.instructions.length := by
  obtain ⟨scope, name, id, source, resolved⟩ := ingested.resolved
  obtain ⟨-, -, resolving, -, -, -, length, made⟩ := resolveSubroutine_eq_ok resolved
  obtain ⟨index, written, found⟩ := made instruction member
  rw [← length]
  refine target_lt_of_resolving found ?_
  unfold Code.Instruction.branchTarget? at branches
  split at branches <;> simp_all

end Cartridge.Program
