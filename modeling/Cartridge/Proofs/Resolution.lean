import Cartridge.Proofs.Ingestion

/-!
What later stages can rely on in the table of a resolved module.

Every type, field and subroutine stands where its id says. An operand of a known opcode is of the
kind the opcode takes, and what it refers to exists: slots and targets in the subroutine itself,
members in the table. A member is looked for by name among the declared ones, so that it exists in
the table follows from the table having as many of each as the module declares.
-/

namespace Cartridge.Program

open Emit (bind_eq_ok pure_eq_ok)

/-- What an operand refers to exists. -/
def Refers (types : TypeTable) (subroutine : Subroutine) : Code.Operand → Prop
  | .constant value => 0 ≤ value ∧ value ≤ 0xFF
  | .local slot => slot.toNat < subroutine.locals.length
  | .argument slot => slot.toNat < subroutine.parameters.length
  | .field id => (types.field? id).isSome
  | .method id => (types.subroutine? id).isSome
  | .target index => index < subroutine.instructions.length
  | _ => True

structure OperandFits (types : TypeTable) (subroutine : Subroutine)
    (instruction : Code.Instruction) : Prop where
  kind : instruction.opcode.isKnown = true →
    instruction.operand.kind = instruction.opcode.operandKind
  refers : Refers types subroutine instruction.operand

structure TypeTable.WellFormed (types : TypeTable) : Prop where
  typeId : ∀ id type, types.get? id = some type → type.id = id
  fieldId : ∀ id field, types.field? id = some field → field.id = id
  subroutineId : ∀ id subroutine, types.subroutine? id = some subroutine → subroutine.id = id
  bodiless : ∀ id subroutine, types.subroutine? id = some subroutine → subroutine.body? = none
  sound : ∀ id subroutine, types.subroutine? id = some subroutine →
    ∀ instruction ∈ subroutine.instructions, OperandFits types subroutine instruction

section Positions

variable {types : TypeTable}

theorem subroutine?_eq_some {id : SubroutineId} {subroutine : Subroutine} :
    types.subroutine? id = some subroutine ↔
      ∃ type, types.types[id.owner]? = some type ∧ type.subroutines[id.index]? = some subroutine :=
  Option.bind_eq_some_iff

theorem field?_eq_some {id : FieldId} {field : Field} :
    types.field? id = some field ↔
      ∃ type, types.types[id.owner]? = some type ∧ type.fields[id.index]? = some field :=
  Option.bind_eq_some_iff

theorem mem_subroutines {subroutine : Subroutine} :
    subroutine ∈ types.subroutines ↔ ∃ id, types.subroutine? id = some subroutine := by
  constructor
  · intro member
    obtain ⟨type, declared, inside⟩ := List.mem_flatMap.mp member
    obtain ⟨owner, foundType⟩ := List.getElem?_of_mem declared
    obtain ⟨index, found⟩ := List.getElem?_of_mem inside
    exact ⟨⟨owner, index⟩, subroutine?_eq_some.mpr ⟨type, foundType, found⟩⟩
  · rintro ⟨id, found⟩
    obtain ⟨type, foundType, inside⟩ := subroutine?_eq_some.mp found
    exact List.mem_flatMap.mpr
      ⟨type, List.mem_of_getElem? foundType, List.mem_of_getElem? inside⟩

theorem TypeTable.WellFormed.subroutine?_id (wellFormed : types.WellFormed)
    {subroutine : Subroutine} (member : subroutine ∈ types.subroutines) :
    types.subroutine? subroutine.id = some subroutine := by
  obtain ⟨id, found⟩ := mem_subroutines.mp member
  rwa [wellFormed.subroutineId id subroutine found]

/-- Every load from a symbol yields a single byte. -/
def TypeTable.LoadsBytes (types : TypeTable) : Prop :=
  ∀ id subroutine symbol, types.subroutine? id = some subroutine →
    subroutine.intrinsic? = some (.loadFromSymbol symbol) → subroutine.returns.size = 1

theorem loadsBytes_of_ofModule {module : Source.Module} {program : Program}
    (resolved : ofModule module = .ok program) : program.types.LoadsBytes := by
  intro id subroutine symbol found loads
  have ingested : subroutine.Ingested :=
    ⟨module, program, resolved, mem_subroutines.mpr ⟨id, found⟩⟩
  exact ingested.returns_size loads

end Positions

section Table

variable {scope : Scope} {table : TypeTable}

theorem resolved_of_getElem? (built : buildTable scope = .ok table) {id : TypeId}
    {type : DeclaredType} (found : table.types[id]? = some type) :
    ∃ origin value, scope.origins[id]? = some origin ∧
      resolveOrigin scope id value origin = .ok type := by
  obtain ⟨origin, value, declared, -, resolved⟩ := resolved_at built found
  exact ⟨origin, value, declared, resolved⟩

theorem getElem?_of_origin (built : buildTable scope = .ok table)
    (valued : scope.values.length = scope.origins.length) {id : TypeId} {origin : Origin}
    (found : scope.origins[id]? = some origin) :
    ∃ type value, table.types[id]? = some type ∧
      resolveOrigin scope id value origin = .ok type := by
  obtain ⟨added, types, related⟩ := types_of_foldlM built
  have bound := (List.getElem?_eq_some_iff.mp found).1
  have lengths := related.length_eq
  rw [List.length_zipIdx, List.length_zip] at lengths
  have inside : id < table.types.length := by
    rwa [types, List.nil_append, ← lengths, valued, Nat.min_self]
  obtain ⟨same, value, foundSame, resolved⟩ :=
    resolved_of_getElem? built (List.getElem?_eq_getElem inside)
  obtain rfl := Option.some.inj (foundSame.symm.trans found)
  exact ⟨_, value, List.getElem?_eq_getElem inside, resolved⟩

theorem fields_of_resolveFields {owner : TypeId} {sources : List Source.Field}
    {index offset : Nat} {fields : List Field}
    (resolved : resolveFields scope owner index offset sources = .ok fields) :
    fields.length = sources.length ∧
      ∀ (position : Nat) (field : Field),
        fields[position]? = some field → field.id = ⟨owner, index + position⟩ := by
  induction sources generalizing index offset fields with
  | nil =>
    obtain rfl := Except.ok.inj resolved
    simp
  | cons source sources ih =>
    -- Static and instance fields differ only in the offset that is handed on.
    have peeled : ∃ first rest next, fields = first :: rest ∧ first.id = ⟨owner, index⟩ ∧
        resolveFields scope owner (index + 1) next sources = .ok rest := by
      obtain ⟨type, -, more⟩ := bind_eq_ok.mp resolved
      simp only at more
      split at more <;>
        obtain ⟨rest, resolvedRest, made⟩ := bind_eq_ok.mp more <;>
        exact ⟨_, rest, _, (pure_eq_ok.mp made).symm, rfl, resolvedRest⟩
    obtain ⟨first, rest, next, rfl, named, resolvedRest⟩ := peeled
    obtain ⟨length, ids⟩ := ih resolvedRest
    refine ⟨by simp [length], ?_⟩
    intro position field found
    cases position with
    | zero =>
      obtain rfl := Option.some.inj found
      exact named
    | succ position =>
      have id := ids position field (by simpa using found)
      rw [id, Nat.add_right_comm, Nat.add_assoc]

/-- A declared type stands for its origin, member by member. -/
structure Mirrors (scope : Scope) (id : TypeId) (origin : Origin) (type : DeclaredType) :
    Prop where
  named : type.id = id
  fields : type.fields.length = origin.fieldNames.length
  fieldIds : ∀ (index : Nat) (field : Field),
    type.fields[index]? = some field → field.id = ⟨id, index⟩
  subroutines : type.subroutines.length = origin.subroutineNames.length
  resolved : ∀ (index : Nat) (subroutine : Subroutine),
    type.subroutines[index]? = some subroutine →
      ∃ source, resolveSubroutine scope origin.name ⟨id, index⟩ source = .ok subroutine

theorem mirrors_of_resolveOrigin {id : TypeId} {value : ValueType} {origin : Origin}
    {type : DeclaredType} (resolved : resolveOrigin scope id value origin = .ok type) :
    Mirrors scope id origin type := by
  cases origin with
  | builtin kind =>
    obtain rfl := Except.ok.inj resolved
    exact ⟨rfl, rfl, by simp, rfl, by simp⟩
  | declared decl =>
    obtain ⟨-, -, next⟩ := bind_eq_ok.mp resolved
    obtain ⟨fields, resolvedFields, more⟩ := bind_eq_ok.mp next
    obtain ⟨subroutines, mapped, made⟩ := bind_eq_ok.mp more
    obtain rfl := pure_eq_ok.mp made
    obtain ⟨length, ids⟩ := fields_of_resolveFields resolvedFields
    have related := forall₂_of_mapM mapped
    refine ⟨rfl, by simpa [Origin.fieldNames] using length, ?_, ?_, ?_⟩
    · intro index field found
      rw [ids index field found, Nat.zero_add]
    · simpa [Origin.subroutineNames] using related.length_eq.symm
    · intro index subroutine found
      have bound := (List.getElem?_eq_some_iff.mp found).1
      have before : index < decl.subroutines.zipIdx.length := by rwa [related.length_eq]
      have made := related.get before bound
      simp only [List.get_eq_getElem, List.getElem_zipIdx, Nat.zero_add,
        (List.getElem?_eq_some_iff.mp found).2] at made
      exact ⟨_, made⟩

end Table

section Members

variable {scope : Scope} {members : Origin → List String}

theorem findMember?_eq_some {name : String} {steps : Nat} {id : TypeId} {found : TypeId × Nat}
    (sought : scope.findMember? members name steps id = some found) :
    ∃ origin, scope.origins[found.1]? = some origin ∧ found.2 < (members origin).length := by
  induction steps generalizing id with
  | zero => contradiction
  | succ steps ih =>
    simp only [Scope.findMember?] at sought
    split at sought
    next => contradiction
    next origin here =>
      split at sought
      next index inside =>
        obtain rfl := Option.some.inj sought
        exact ⟨origin, here, (List.findIdx?_eq_some_iff_getElem.mp inside).1⟩
      next =>
        split at sought
        next base _ => exact ih sought
        next => contradiction

theorem member?_eq_some {member : Source.MemberName} {found : TypeId × Nat}
    (sought : scope.member? members member = some found) :
    ∃ origin, scope.origins[found.1]? = some origin ∧ found.2 < (members origin).length := by
  obtain ⟨⟨origin, id⟩, -, rest⟩ := Option.bind_eq_some_iff.mp sought
  exact findMember?_eq_some rest

variable {table : TypeTable}

theorem field?_isSome (built : buildTable scope = .ok table)
    (valued : scope.values.length = scope.origins.length) {member : Source.MemberName}
    {id : FieldId} (named : scope.field member = .ok id) : (table.field? id).isSome = true := by
  unfold Scope.field at named
  split at named
  next owner index sought =>
    obtain rfl := Except.ok.inj named
    obtain ⟨origin, declared, bound⟩ := member?_eq_some sought
    obtain ⟨type, value, found, resolved⟩ := getElem?_of_origin built valued declared
    have inside : index < type.fields.length := by
      rw [(mirrors_of_resolveOrigin resolved).fields]
      exact bound
    exact Option.isSome_iff_exists.mpr
      ⟨_, field?_eq_some.mpr ⟨type, found, List.getElem?_eq_getElem inside⟩⟩
  next => contradiction

theorem subroutine?_isSome (built : buildTable scope = .ok table)
    (valued : scope.values.length = scope.origins.length) {member : Source.MemberName}
    {id : SubroutineId} (named : scope.subroutine member = .ok id) :
    (table.subroutine? id).isSome = true := by
  unfold Scope.subroutine at named
  split at named
  next owner index sought =>
    obtain rfl := Except.ok.inj named
    obtain ⟨origin, declared, bound⟩ := member?_eq_some sought
    obtain ⟨type, value, found, resolved⟩ := getElem?_of_origin built valued declared
    have inside : index < type.subroutines.length := by
      rw [(mirrors_of_resolveOrigin resolved).subroutines]
      exact bound
    exact Option.isSome_iff_exists.mpr
      ⟨_, subroutine?_eq_some.mpr ⟨type, found, List.getElem?_eq_getElem inside⟩⟩
  next => contradiction

end Members

/-- What was checked of an instruction when it was resolved. -/
theorem instruction_eq_ok {resolving : Resolving} {index : Nat} {written : Source.Instruction}
    {instruction : Code.Instruction}
    (resolved : resolving.instruction index written = .ok instruction) :
    resolving.operand index written.operand? = .ok instruction.operand ∧
      resolving.checkKind index instruction.opcode instruction.operand = .ok () ∧
      resolving.checkConstant index instruction.operand = .ok () := by
  obtain ⟨operand, found, next⟩ := bind_eq_ok.mp resolved
  obtain ⟨⟨⟩, kind, more⟩ := bind_eq_ok.mp next
  obtain ⟨⟨⟩, constant, made⟩ := bind_eq_ok.mp more
  obtain rfl := pure_eq_ok.mp made
  exact ⟨found, kind, constant⟩

theorem kind_of_checkKind {resolving : Resolving} {index : Nat} {opcode : Code.Opcode}
    {operand : Code.Operand} (checked : resolving.checkKind index opcode operand = .ok ())
    (known : opcode.isKnown = true) : operand.kind = opcode.operandKind := by
  unfold Resolving.checkKind at checked
  split at checked
  next => contradiction
  next agrees => simpa [known] using agrees

theorem refers_of_operand {resolving : Resolving} {table : TypeTable} {subroutine : Subroutine}
    (built : buildTable resolving.scope = .ok table)
    (valued : resolving.scope.values.length = resolving.scope.origins.length)
    (parameters : resolving.parameters = subroutine.parameters)
    (locals : resolving.locals = subroutine.locals)
    (length : resolving.length = subroutine.instructions.length) {index : Nat}
    {written? : Option Source.Operand} {operand : Code.Operand}
    (resolved : resolving.operand index written? = .ok operand)
    (constant : resolving.checkConstant index operand = .ok ()) :
    Refers table subroutine operand := by
  cases written? with
  | none =>
    obtain rfl := Except.ok.inj resolved
    exact trivial
  | some written =>
    cases written with
    | constant value =>
      obtain rfl := Except.ok.inj resolved
      simp only [Resolving.checkConstant] at constant
      split at constant
      next fits => exact fits
      next => contradiction
    | type reference =>
      obtain ⟨value, -, made⟩ := bind_eq_ok.mp resolved
      obtain rfl := pure_eq_ok.mp made
      exact trivial
    | field member =>
      obtain ⟨id, found, made⟩ := bind_eq_ok.mp resolved
      obtain rfl := pure_eq_ok.mp made
      exact field?_isSome built valued found
    | method member =>
      obtain ⟨id, found, made⟩ := bind_eq_ok.mp resolved
      obtain rfl := pure_eq_ok.mp made
      exact subroutine?_isSome built valued found
    | «local» slot =>
      simp only [Resolving.operand, locals] at resolved
      split at resolved
      next inside =>
        obtain rfl := Except.ok.inj resolved
        exact inside
      next => contradiction
    | argument slot =>
      simp only [Resolving.operand, parameters] at resolved
      split at resolved
      next inside =>
        obtain rfl := Except.ok.inj resolved
        exact inside
      next => contradiction
    | target target =>
      simp only [Resolving.operand, length] at resolved
      split at resolved
      next inside =>
        obtain rfl := Except.ok.inj resolved
        exact inside
      next => contradiction

theorem wellFormed_of_buildTable {scope : Scope} {table : TypeTable}
    (built : buildTable scope = .ok table)
    (valued : scope.values.length = scope.origins.length) : table.WellFormed := by
  have mirrors : ∀ (id : TypeId) type, table.types[id]? = some type →
      ∃ origin, Mirrors scope id origin type := by
    intro id type found
    obtain ⟨origin, value, -, resolved⟩ := resolved_of_getElem? built found
    exact ⟨origin, mirrors_of_resolveOrigin resolved⟩
  have resolved : ∀ id subroutine, table.subroutine? id = some subroutine →
      ∃ name source, resolveSubroutine scope name id source = .ok subroutine := by
    intro id subroutine found
    obtain ⟨type, foundType, inside⟩ := subroutine?_eq_some.mp found
    obtain ⟨origin, mirrored⟩ := mirrors id.owner type foundType
    obtain ⟨source, made⟩ := mirrored.resolved id.index subroutine inside
    exact ⟨_, source, made⟩
  refine ⟨?_, ?_, ?_, ?_, ?_⟩
  · intro id type found
    obtain ⟨origin, mirrored⟩ := mirrors id type found
    exact mirrored.named
  · intro id field found
    obtain ⟨type, foundType, inside⟩ := field?_eq_some.mp found
    obtain ⟨origin, mirrored⟩ := mirrors id.owner type foundType
    exact mirrored.fieldIds id.index field inside
  · intro id subroutine found
    obtain ⟨name, source, made⟩ := resolved id subroutine found
    exact (resolveSubroutine_eq_ok made).1
  · intro id subroutine found
    obtain ⟨name, source, made⟩ := resolved id subroutine found
    exact (resolveSubroutine_eq_ok made).2.1
  · intro id subroutine found instruction member
    obtain ⟨name, source, made⟩ := resolved id subroutine found
    obtain ⟨-, -, resolving, rfl, parameters, locals, length, written⟩ :=
      resolveSubroutine_eq_ok made
    obtain ⟨index, source, checked⟩ := written instruction member
    obtain ⟨operand, kind, constant⟩ := instruction_eq_ok checked
    exact ⟨kind_of_checkKind kind,
      refers_of_operand built valued parameters locals length operand constant⟩

theorem length_of_mapM_run {σ ε α β : Type} {f : α → StateT σ (Except ε) β} {entries : List α}
    {start stop : σ} {results : List β}
    (mapped : (entries.mapM f).run start = .ok (results, stop)) :
    results.length = entries.length := by
  induction entries generalizing start results with
  | nil =>
    obtain ⟨rfl, -⟩ := Prod.mk.inj (pure_eq_ok.mp mapped)
    rfl
  | cons entry entries ih =>
    rw [List.mapM_cons, StateT.run_bind] at mapped
    obtain ⟨⟨first, between⟩, -, next⟩ := bind_eq_ok.mp mapped
    rw [StateT.run_bind] at next
    obtain ⟨⟨rest, last⟩, mappedRest, made⟩ := bind_eq_ok.mp next
    obtain ⟨rfl, rfl⟩ := Prod.mk.inj (pure_eq_ok.mp made)
    rw [List.length_cons, List.length_cons, ih mappedRest]

/-- The steps of the resolution of a module. -/
theorem table_of_ofModule {module : Source.Module} {program : Program}
    (made : ofModule module = .ok program) :
    (∃ values known,
      ((originsOf module).zipIdx.mapM
        (resolveType (originsOf module) ((originsOf module).length + 1) [])).run [] =
          .ok (values, known) ∧
      buildTable ⟨originsOf module, values⟩ = .ok program.types) ∧
    findEntry program.types = .ok program.entry := by
  obtain ⟨scope, named, next⟩ := bind_eq_ok.mp made
  obtain ⟨types, built, more⟩ := bind_eq_ok.mp next
  obtain ⟨entry, found, result⟩ := bind_eq_ok.mp more
  obtain rfl := pure_eq_ok.mp result
  obtain ⟨-, -, resolved⟩ := bind_eq_ok.mp named
  obtain ⟨⟨values, last⟩, mapped, scopeMade⟩ := bind_eq_ok.mp resolved
  obtain rfl := pure_eq_ok.mp scopeMade
  exact ⟨⟨values, last, mapped, built⟩, found⟩

theorem ofModule_eq_ok {module : Source.Module} {program : Program}
    (made : ofModule module = .ok program) :
    program.types.WellFormed ∧ findEntry program.types = .ok program.entry := by
  obtain ⟨⟨values, known, mapped, built⟩, found⟩ := table_of_ofModule made
  have valued := length_of_mapM_run mapped
  rw [List.length_zipIdx] at valued
  exact ⟨wellFormed_of_buildTable built valued, found⟩

theorem entry_of_findEntry {types : TypeTable} {entry : SubroutineId}
    (wellFormed : types.WellFormed) (found : findEntry types = .ok entry) :
    ∃ subroutine, types.subroutine? entry = some subroutine ∧ subroutine.isEntry = true := by
  unfold findEntry at found
  split at found
  next => contradiction
  next subroutine single =>
    obtain rfl := Except.ok.inj found
    have member : subroutine ∈ types.subroutines.filter (·.isEntry) := by simp [single]
    obtain ⟨inside, isEntry⟩ := List.mem_filter.mp member
    exact ⟨subroutine, wellFormed.subroutine?_id inside, isEntry⟩
  next => contradiction

end Cartridge.Program
