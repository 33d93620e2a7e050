import Cartridge.Proofs.TypeMeaning

/-!
The table of a scope.

Each type of the table stands for the origin at its position, with the members that are written
there. So names are looked up in the table as they are in the scope, and an id stands for the same
name in both. A table can be built as soon as every origin can be resolved, since names are distinct
and ids count up.
-/

namespace Cartridge.Program

open Emit (bind_eq_ok pure_eq_ok)

section Members

variable {scope : Scope} {id : TypeId} {value : ValueType} {type : DeclaredType}

/-- The parts that a declared type is made of. -/
theorem resolveDecl_eq_ok {decl : Source.TypeDecl}
    (resolved : resolveDecl scope id value decl = .ok type) :
    resolveFields scope id 0 (ownStart value) decl.fields = .ok type.fields ∧
    (decl.subroutines.zipIdx.mapM fun (source, index) =>
      resolveSubroutine scope decl.name { owner := id, index } source) = .ok type.subroutines ∧
    type = { id, name := decl.name, base? := scope.base? id, fields := type.fields
             subroutines := type.subroutines, value } := by
  obtain ⟨-, -, next⟩ := bind_eq_ok.mp resolved
  obtain ⟨fields, resolvedFields, more⟩ := bind_eq_ok.mp next
  obtain ⟨subroutines, mapped, made⟩ := bind_eq_ok.mp more
  obtain rfl := pure_eq_ok.mp made
  exact ⟨resolvedFields, mapped, rfl⟩

theorem name_of_resolveOrigin {origin : Origin}
    (resolved : resolveOrigin scope id value origin = .ok type) :
    type.name = origin.name ∧ type.value = value ∧ type.base? = scope.base? id := by
  cases origin with
  | builtin kind =>
    obtain rfl := Except.ok.inj resolved
    exact ⟨rfl, rfl, rfl⟩
  | declared decl =>
    obtain ⟨-, -, parts⟩ := resolveDecl_eq_ok resolved
    rw [parts]
    exact ⟨rfl, rfl, rfl⟩

/-- A declared field stands for a written one. -/
structure Declares (scope : Scope) (source : Source.Field) (field : Field) : Prop where
  name : field.name = source.name
  type : scope.valueType source.type = .ok field.type
  static : field.isStatic = source.isStatic

theorem declares_of_resolveFields {owner : TypeId} {index offset : Nat}
    {sources : List Source.Field} {fields : List Field}
    (resolved : resolveFields scope owner index offset sources = .ok fields) :
    List.Forall₂ (Declares scope) sources fields := by
  induction sources generalizing index offset fields with
  | nil =>
    obtain rfl := Except.ok.inj resolved
    exact .nil
  | cons source sources ih =>
    obtain ⟨type, typed, more⟩ := bind_eq_ok.mp resolved
    simp only at more
    split at more
    next static =>
      obtain ⟨rest, resolvedRest, made⟩ := bind_eq_ok.mp more
      obtain rfl := pure_eq_ok.mp made
      exact .cons ⟨rfl, typed, static.symm⟩ (ih resolvedRest)
    next inside =>
      obtain ⟨rest, resolvedRest, made⟩ := bind_eq_ok.mp more
      obtain rfl := pure_eq_ok.mp made
      exact .cons ⟨rfl, typed, by simpa [Field.isStatic] using inside⟩ (ih resolvedRest)

theorem names_of_resolveOrigin {origin : Origin}
    (resolved : resolveOrigin scope id value origin = .ok type) :
    type.fields.map (·.name) = origin.fieldNames ∧
      type.subroutines.map (·.name) = origin.subroutineNames := by
  cases origin with
  | builtin kind =>
    obtain rfl := Except.ok.inj resolved
    exact ⟨rfl, rfl⟩
  | declared decl =>
    obtain ⟨resolvedFields, mapped, -⟩ := resolveDecl_eq_ok resolved
    have declares := declares_of_resolveFields resolvedFields
    have named : type.subroutines.map (·.name) =
        (decl.subroutines.zipIdx.map Prod.fst).map (·.name) := by
      rw [List.map_map]
      refine (map_eq_of_forall₂ (forall₂_of_mapM mapped) fun {entry subroutine} found => ?_).symm
      obtain ⟨-, -, -, -, -, parts⟩ := made_of_resolveSubroutine found
      rw [parts]
      rfl
    rw [List.zipIdx_map_fst] at named
    exact ⟨(map_eq_of_forall₂ declares fun first => first.name.symm).symm, named⟩

end Members

section Positions

variable {scope : Scope} {table : TypeTable}

/-- A type of the table stands for an origin of the scope. -/
def StandsFor (scope : Scope) (entry : Origin × TypeId) (type : DeclaredType) : Prop :=
  scope.origins[entry.2]? = some entry.1 ∧
    ∃ value, Denotes (typeNamed? scope.origins) (.named entry.1.name) value ∧
      resolveOrigin scope entry.2 value entry.1 = .ok type

theorem standsFor_of_buildTable (meaningful : scope.Meaningful)
    (built : buildTable scope = .ok table) :
    List.Forall₂ (StandsFor scope) scope.origins.zipIdx table.types := by
  obtain ⟨added, types, related⟩ := types_of_foldlM built
  have lengths : scope.origins.zipIdx.length = table.types.length := by
    rw [types, List.nil_append, ← related.length_eq, List.length_zipIdx, List.length_zipIdx,
      List.length_zip, meaningful.length_eq, Nat.min_self]
  refine List.forall₂_iff_get.mpr ⟨lengths, ?_⟩
  intro index before inside
  obtain ⟨origin, value, declared, valued, resolved⟩ :=
    resolved_at built (List.getElem?_eq_getElem inside)
  obtain ⟨meant, foundMeant, means⟩ := meaningful.getElem? declared
  obtain rfl := Option.some.inj (foundMeant.symm.trans valued)
  have entry : scope.origins.zipIdx.get ⟨index, before⟩ = (origin, index) := by
    simpa using (List.getElem?_eq_some_iff.mp declared).2
  rw [entry]
  exact ⟨declared, meant, means, resolved⟩

/-- A name is looked up in the table as it is in the scope. -/
theorem rel_lookup? (meaningful : scope.Meaningful) (built : buildTable scope = .ok table)
    (name : String) :
    Option.Rel (StandsFor scope) (findOrigin? scope.origins name) (table.lookup? name) := by
  rw [(ordered_of_buildTable built).lookup?_eq_find?]
  refine rel_find? (standsFor_of_buildTable meaningful built) ?_
  intro entry type stands
  obtain ⟨-, value, -, resolved⟩ := stands
  rw [(name_of_resolveOrigin resolved).1]

theorem lookup?_of_findOrigin? (meaningful : scope.Meaningful)
    (built : buildTable scope = .ok table) {name : String} {entry : Origin × TypeId}
    (found : findOrigin? scope.origins name = some entry) :
    ∃ type, table.lookup? name = some type ∧ StandsFor scope entry type := by
  have looked := rel_lookup? meaningful built name
  rw [found] at looked
  generalize table.lookup? name = type? at looked
  cases looked with
  | some stands => exact ⟨_, rfl, stands⟩

/-- The base of a type is the one of the name that its declaration gives. -/
theorem base?_of_denotes (meaningful : scope.Meaningful) (built : buildTable scope = .ok table)
    {id : TypeId} {origin : Origin} (found : scope.origins[id]? = some origin) {name : String}
    (named : origin.baseName? = some name) {value : ValueType}
    (means : Denotes (typeNamed? scope.origins) (.named name) value) :
    ∃ base, table.lookup? name = some base ∧ scope.base? id = some base.id ∧ base.name = name ∧
      base.value = value := by
  obtain ⟨entry, sought⟩ := findOrigin?_of_denotes means
  obtain ⟨inside, rfl⟩ := findOrigin?_eq_some sought
  obtain ⟨base, looked, -, meant, meansBase, resolved⟩ :=
    lookup?_of_findOrigin? meaningful built sought
  obtain ⟨sameName, sameValue, -⟩ := name_of_resolveOrigin resolved
  refine ⟨base, looked, ?_, sameName, sameValue.trans (meansBase.unique means)⟩
  rw [(mirrors_of_resolveOrigin resolved).named]
  simp [Scope.base?, found, named, sought]

theorem rel_get? (meaningful : scope.Meaningful) (built : buildTable scope = .ok table)
    (id : TypeId) :
    Option.Rel (fun origin type => StandsFor scope (origin, id) type) scope.origins[id]?
      (table.get? id) := by
  have related := rel_getElem? (standsFor_of_buildTable meaningful built) id
  rw [List.getElem?_zipIdx, Nat.zero_add] at related
  unfold TypeTable.get?
  generalize scope.origins[id]? = origin?, table.types[id]? = type? at related
  cases origin? with
  | none =>
    cases related
    exact .none
  | some origin =>
    cases related with
    | some stands => exact .some stands

theorem forall₂_origins (meaningful : scope.Meaningful) (built : buildTable scope = .ok table) :
    List.Forall₂ (fun origin type => ∃ id, StandsFor scope (origin, id) type) scope.origins
      table.types := by
  have stands : List.Forall₂
      (fun (entry : Origin × TypeId) type => ∃ id, StandsFor scope (entry.1, id) type)
      scope.origins.zipIdx table.types :=
    (standsFor_of_buildTable meaningful built).imp fun entry _ holds => ⟨entry.2, holds⟩
  rw [← List.forall₂_map_left_iff (f := Prod.fst) (R := fun origin type =>
    ∃ id, StandsFor scope (origin, id) type), List.zipIdx_map_fst] at stands
  exact stands

end Positions

section Naming

/-- The names that ids stand for. -/
@[ext]
structure Naming where
  type : TypeId → Option String
  field : FieldId → Option Source.MemberName
  method : SubroutineId → Option Source.MemberName

def TypeTable.memberName? (types : TypeTable) (members : DeclaredType → List String)
    (owner : TypeId) (index : Nat) : Option Source.MemberName := do
  let type ← types.get? owner
  let name ← (members type)[index]?
  return { type := type.name, name }

def TypeTable.naming (types : TypeTable) : Naming where
  type id := (types.get? id).map (·.name)
  field id := types.memberName? (·.fields.map (·.name)) id.owner id.index
  method id := types.memberName? (·.subroutines.map (·.name)) id.owner id.index

def Scope.memberName? (scope : Scope) (members : Origin → List String) (owner : TypeId)
    (index : Nat) : Option Source.MemberName := do
  let origin ← scope.origins[owner]?
  let name ← (members origin)[index]?
  return { type := origin.name, name }

def Scope.naming (scope : Scope) : Naming where
  type id := (scope.origins[id]?).map Origin.name
  field id := scope.memberName? Origin.fieldNames id.owner id.index
  method id := scope.memberName? Origin.subroutineNames id.owner id.index

variable {scope : Scope} {table : TypeTable}

theorem memberName?_of_buildTable (meaningful : scope.Meaningful)
    (built : buildTable scope = .ok table) {members : DeclaredType → List String}
    {written : Origin → List String}
    (same : ∀ entry type, StandsFor scope entry type → members type = written entry.1)
    (owner : TypeId) (index : Nat) :
    table.memberName? members owner index = scope.memberName? written owner index := by
  have related := rel_get? meaningful built owner
  unfold TypeTable.memberName? Scope.memberName?
  generalize scope.origins[owner]? = origin?, table.get? owner = type? at related
  cases related with
  | none => rfl
  | some stands =>
    have members := same _ _ stands
    obtain ⟨-, value, -, resolved⟩ := stands
    simp only [Option.bind_eq_bind, Option.bind_some, members, (name_of_resolveOrigin resolved).1]

/-- Ids stand for the same names in the scope and in the table. -/
theorem naming_of_buildTable (meaningful : scope.Meaningful)
    (built : buildTable scope = .ok table) :
    table.naming = scope.naming := by
  ext1
  · funext id
    have related := rel_get? meaningful built id
    simp only [TypeTable.naming, Scope.naming]
    generalize scope.origins[id]? = origin?, table.get? id = type? at related
    cases related with
    | none => rfl
    | some stands =>
      obtain ⟨-, value, -, resolved⟩ := stands
      exact congrArg some (name_of_resolveOrigin resolved).1
  · funext id
    apply memberName?_of_buildTable meaningful built
    intro entry type ⟨_, value, _, resolved⟩
    exact (names_of_resolveOrigin resolved).1
  · funext id
    apply memberName?_of_buildTable meaningful built
    intro entry type ⟨_, value, _, resolved⟩
    exact (names_of_resolveOrigin resolved).2

end Naming

section Building

variable {scope : Scope}

theorem add_of_fresh {table : TypeTable} (ordered : table.Ordered) {type : DeclaredType}
    (fresh : type.name ∉ table.types.map (·.name)) (next : type.id = table.types.length) :
    ∃ after, table.add type = .ok after := by
  refine ⟨_, TypeTable.add_eq_ok_iff.mpr ⟨?_, next, rfl⟩⟩
  rw [Bool.eq_false_iff, ne_eq, ordered.isSome_lookup]
  rintro ⟨present, member, same⟩
  exact fresh (List.mem_map.mpr ⟨present, member, same⟩)

theorem exists_foldlM {start : TypeTable} (ordered : start.Ordered)
    {pairs : List (Origin × ValueType)}
    (fresh : (start.types.map (·.name) ++ pairs.map (·.1.name)).Nodup)
    (resolves : ∀ entry ∈ pairs.zipIdx start.types.length,
      ∃ type, resolveOrigin scope entry.2 entry.1.2 entry.1.1 = .ok type) :
    ∃ table, (pairs.zipIdx start.types.length).foldlM
      (fun table ((origin, value), id) => do
        orTableFault (table.add (← resolveOrigin scope id value origin))) start = .ok table := by
  induction pairs generalizing start with
  | nil => exact ⟨start, rfl⟩
  | cons pair pairs ih =>
    rw [List.zipIdx_cons] at resolves ⊢
    obtain ⟨type, resolved⟩ := resolves (pair, start.types.length) List.mem_cons_self
    have name := (name_of_resolveOrigin resolved).1
    have unused : type.name ∉ start.types.map (·.name) := by
      intro member
      rw [name] at member
      exact (List.nodup_append.mp fresh).2.2 _ member _ List.mem_cons_self rfl
    obtain ⟨next, added⟩ := add_of_fresh ordered unused (mirrors_of_resolveOrigin resolved).named
    have types : next.types = start.types ++ [type] := add_eq_ok (orTableFault_eq_ok.mpr added)
    have length : next.types.length = start.types.length + 1 := by simp [types]
    have later : ∀ entry ∈ pairs.zipIdx next.types.length,
        ∃ type, resolveOrigin scope entry.2 entry.1.2 entry.1.1 = .ok type := by
      rw [length]
      intro entry member
      exact resolves entry (List.mem_cons_of_mem _ member)
    obtain ⟨table, folded⟩ := ih (ordered.add added) (by simpa [types, name] using fresh) later
    rw [length] at folded
    refine ⟨table, ?_⟩
    rw [List.foldlM_cons]
    exact bind_eq_ok.mpr
      ⟨_, bind_eq_ok.mpr ⟨type, resolved, orTableFault_eq_ok.mpr added⟩, folded⟩

/-- A scope whose origins can all be resolved has a table. -/
theorem exists_buildTable (meaningful : scope.Meaningful)
    (resolves : ∀ id origin value, scope.origins[id]? = some origin →
      Denotes (typeNamed? scope.origins) (.named origin.name) value →
        ∃ type, resolveOrigin scope id value origin = .ok type) :
    ∃ table, buildTable scope = .ok table := by
  refine exists_foldlM TypeTable.ordered_empty ?_ ?_
  · have firsts := List.map_fst_zip (Nat.le_of_eq meaningful.length_eq.symm)
    have names := congrArg (List.map Origin.name) firsts
    rw [List.map_map] at names
    exact names ▸ meaningful.named.types
  · intro entry member
    obtain ⟨found, valued⟩ :=
      List.getElem?_zip_eq_some.mp (List.mem_zipIdx_iff_getElem?.mp member)
    obtain ⟨meant, foundMeant, means⟩ := meaningful.getElem? found
    obtain rfl := Option.some.inj (foundMeant.symm.trans valued)
    exact resolves entry.2 entry.1.1 _ found means

theorem findEntry_eq_ok {types : TypeTable} {id : SubroutineId} :
    findEntry types = .ok id ↔
      ∃ entry, types.subroutines.filter (·.isEntry) = [entry] ∧ entry.id = id := by
  unfold findEntry
  generalize types.subroutines.filter (·.isEntry) = entries
  match entries with
  | [] => simp
  | [entry] => simp
  | first :: second :: rest => simp

theorem ofModule_eq_ok_iff {module : Source.Module} {program : Program} :
    ofModule module = .ok program ↔ ∃ scope, Scope.ofModule module = .ok scope ∧
      buildTable scope = .ok program.types ∧ findEntry program.types = .ok program.entry := by
  constructor
  · intro made
    obtain ⟨scope, named, next⟩ := bind_eq_ok.mp made
    obtain ⟨types, built, more⟩ := bind_eq_ok.mp next
    obtain ⟨entry, found, result⟩ := bind_eq_ok.mp more
    obtain rfl := pure_eq_ok.mp result
    exact ⟨scope, named, built, found⟩
  · intro ⟨scope, named, built, found⟩
    exact bind_eq_ok.mpr ⟨scope, named, bind_eq_ok.mpr ⟨program.types, built,
      bind_eq_ok.mpr ⟨program.entry, found, rfl⟩⟩⟩

end Building

end Cartridge.Program
