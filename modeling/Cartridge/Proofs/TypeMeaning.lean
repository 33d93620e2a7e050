import Cartridge.Proofs.Keys
import Cartridge.Proofs.Resolution
import Mathlib.Data.List.Perm.Subperm
import Mathlib.Logic.Relation
import Mathlib.Order.WellFounded

/-!
What the names of types mean.

A type means what its base and its instance fields mean, all of them by name, so that neither the
order of declarations nor where resolution starts plays a part. Resolution on demand finds exactly
these meanings. It fails only at a name that has none: one that is not declared, or one that its own
meaning would depend on.
-/

namespace Cartridge

/-- The layout of a record; other values have none. -/
def ValueType.layout? : ValueType → Option Layout
  | .record layout => some layout
  | _ => none

/-- The name that a reference ends up at, behind all pointers. -/
def TypeReference.core : TypeReference → String
  | .named name => name
  | .pointer target _ => target.core

end Cartridge

namespace Cartridge.Program

open Emit (bind_eq_ok pure_eq_ok)

def typeNamed? (origins : List Origin) (name : String) : Option Origin :=
  origins.find? fun origin => origin.name == name

/-- The value type that a reference means, by what is declared under each name. -/
inductive Denotes (find : String → Option Origin) : TypeReference → ValueType → Prop
  | builtin {name : String} {kind : Primitive} (found : find name = some (.builtin kind)) :
    Denotes find (.named name) (.primitive kind)
  | declared {name : String} {decl : Source.TypeDecl} {base : ValueType}
    {types : Source.Field → ValueType} (found : find name = some (.declared decl))
    (based : Denotes find (.named (decl.base?.getD Primitive.object.name)) base)
    (typed : ∀ field ∈ decl.fields, field.isStatic = false →
      Denotes find (.read field.type.toList) (types field)) :
    Denotes find (.named name) (.record (Layout.extend decl.name base.layout?
      ((decl.fields.filter (!·.isStatic)).map fun field => (field.name, types field))))
  | pointer {target : TypeReference} {value : ValueType} {zeroPage : Bool}
    (points : Denotes find target value) :
    Denotes find (.pointer target zeroPage) (.pointer value zeroPage)

/-- The names that a type has to be resolved before. -/
inductive Needs (find : String → Option Origin) : String → String → Prop
  | base {name : String} {decl : Source.TypeDecl} (found : find name = some (.declared decl)) :
    Needs find name (decl.base?.getD Primitive.object.name)
  | field {name : String} {decl : Source.TypeDecl} {field : Source.Field}
    (found : find name = some (.declared decl)) (member : field ∈ decl.fields)
    (inside : field.isStatic = false) :
    Needs find name (TypeReference.read field.type.toList).core

theorem declared_unique {find : String → Option Origin} {name : String}
    {decl other : Source.TypeDecl} (found : find name = some (.declared decl))
    (again : find name = some (.declared other)) : decl = other :=
  Origin.declared.inj (Option.some.inj (found.symm.trans again))

namespace Denotes

variable {find : String → Option Origin} {reference : TypeReference} {value other : ValueType}

theorem unique (first : Denotes find reference value) (second : Denotes find reference other) :
    value = other := by
  induction first generalizing other with
  | builtin found =>
    cases second with
    | builtin again =>
      obtain rfl := Origin.builtin.inj (Option.some.inj (found.symm.trans again))
      rfl
    | declared again => cases found.symm.trans again
  | @declared name decl base types found based typed baseUnique typesUnique =>
    cases second with
    | builtin again => cases found.symm.trans again
    | @declared _ _ otherBase otherTypes again otherBased otherTyped =>
      obtain rfl := declared_unique found again
      have same : ∀ field ∈ decl.fields.filter (!·.isStatic),
          (field.name, types field) = (field.name, otherTypes field) := by
        intro field member
        obtain ⟨inside, kept⟩ := List.mem_filter.mp member
        have instanceField : field.isStatic = false := by simpa using kept
        rw [typesUnique field inside instanceField (otherTyped field inside instanceField)]
      rw [baseUnique otherBased, List.map_congr_left same]
  | pointer points ih =>
    cases second with
    | pointer again => rw [ih again]

theorem acc (denotes : Denotes find reference value) :
    Acc (fun name user => Needs find user name) reference.core := by
  induction denotes with
  | builtin found =>
    constructor
    intro name needs
    cases needs with
    | base again => cases found.symm.trans again
    | field again => cases found.symm.trans again
  | declared found based typed baseAcc typesAcc =>
    constructor
    intro name needs
    cases needs with
    | base again =>
      obtain rfl := declared_unique found again
      exact baseAcc
    | field again member inside =>
      obtain rfl := declared_unique found again
      exact typesAcc _ member inside
  | pointer points ih => exact ih

/-- What has a meaning does not depend on itself. -/
theorem not_needs_self (denotes : Denotes find reference value) :
    ¬ Relation.TransGen (Needs find) reference.core reference.core := by
  intro cycle
  have acc := denotes.acc.transGen
  generalize reference.core = name at acc cycle
  induction acc with
  | intro name _ ih => exact ih name (Relation.transGen_swap.mpr cycle) cycle

end Denotes

/-- A resolution that keeps what is remembered true. It gives what is meant, and fails only where
nothing is. -/
def Settles {α : Type} (keeps : Resolved → Prop) (resolution : Resolution α) (meant : α → Prop) :
    Prop :=
  ∀ known, keeps known →
    match resolution.run known with
    | .ok (value, after) => keeps after ∧ meant value
    | .error _ => ∀ value, ¬ meant value

namespace Settles

variable {α β : Type} {keeps : Resolved → Prop}

theorem pure {meant : α → Prop} {value : α} (holds : meant value) :
    Settles keeps (Pure.pure value) meant :=
  fun _ kept => ⟨kept, holds⟩

theorem bind {first : Resolution α} {next : α → Resolution β} {meant : α → Prop}
    {whole : β → Prop} (settled : Settles keeps first meant)
    (rest : ∀ value, meant value → Settles keeps (next value) whole)
    (part : ∀ result, whole result → ∃ value, meant value) :
    Settles keeps (first >>= next) whole := by
  intro known kept
  have here := settled known kept
  rw [StateT.run_bind]
  cases ran : first.run known with
  | error fault =>
    rw [ran] at here
    intro result holds
    obtain ⟨value, means⟩ := part result holds
    exact here value means
  | ok outcome =>
    rw [ran] at here
    exact rest outcome.1 here.2 outcome.2 here.1

theorem of_iff {resolution : Resolution α} {meant other : α → Prop}
    (settled : Settles keeps resolution meant) (same : ∀ value, meant value ↔ other value) :
    Settles keeps resolution other := by
  rwa [funext fun value => propext (same value)] at settled

theorem mapM {entries : List α} {resolve : α → Resolution β} {meant : α → β → Prop}
    (each : ∀ entry ∈ entries, Settles keeps (resolve entry) (meant entry)) :
    Settles keeps (entries.mapM resolve) (List.Forall₂ meant entries) := by
  induction entries with
  | nil => exact Settles.pure .nil
  | cons entry entries ih =>
    rw [List.mapM_cons]
    refine Settles.bind (each entry List.mem_cons_self) ?_ ?_
    · intro first means
      refine Settles.bind (ih fun later inside => each later (List.mem_cons_of_mem _ inside)) ?_ ?_
      · intro rest meansRest
        exact Settles.pure (.cons means meansRest)
      · intro results holds
        obtain ⟨_, rest, -, meansRest, rfl⟩ := List.forall₂_cons_left_iff.mp holds
        exact ⟨rest, meansRest⟩
    · intro results holds
      obtain ⟨first, _, means, -, rfl⟩ := List.forall₂_cons_left_iff.mp holds
      exact ⟨first, means⟩

end Settles

section Names

variable {origins : List Origin}

theorem findOrigin?_eq_none {name : String} (missing : findOrigin? origins name = none) :
    typeNamed? origins name = none := by
  rw [findOrigin?, List.find?_eq_none] at missing
  refine List.find?_eq_none.mpr ?_
  intro origin member
  obtain ⟨id, inside⟩ := List.getElem?_of_mem member
  exact missing (origin, id) (List.mk_mem_zipIdx_iff_getElem?.mpr inside)

theorem findOrigin?_eq_some {name : String} {origin : Origin} {id : TypeId}
    (found : findOrigin? origins name = some (origin, id)) :
    origins[id]? = some origin ∧ origin.name = name :=
  ⟨List.mk_mem_zipIdx_iff_getElem?.mp (List.mem_of_find?_eq_some found),
    by simpa using List.find?_some found⟩

theorem findOrigin?_of_denotes {name : String} {value : ValueType}
    (means : Denotes (typeNamed? origins) (.named name) value) :
    ∃ entry, findOrigin? origins name = some entry := by
  cases sought : findOrigin? origins name with
  | some entry => exact ⟨entry, rfl⟩
  | none =>
    have missing := findOrigin?_eq_none sought
    cases means with
    | builtin found => cases missing.symm.trans found
    | declared found => cases missing.symm.trans found

variable (distinct : (origins.map Origin.name).Nodup)
include distinct

theorem typeNamed?_eq_some {id : TypeId} {origin : Origin} (found : origins[id]? = some origin) :
    typeNamed? origins origin.name = some origin :=
  (find?_key_eq_some distinct).mpr ⟨List.mem_of_getElem? found, rfl⟩

/-- With distinct names, a type is found under its name at its position. -/
theorem findOrigin?_of_getElem? {id : TypeId} {origin : Origin}
    (found : origins[id]? = some origin) :
    findOrigin? origins origin.name = some (origin, id) := by
  cases sought : findOrigin? origins origin.name with
  | none =>
    have missing := findOrigin?_eq_none sought
    rw [typeNamed?_eq_some distinct found] at missing
    contradiction
  | some entry =>
    obtain ⟨other, position⟩ := entry
    obtain ⟨inside, named⟩ := findOrigin?_eq_some sought
    have names : (origins.map Origin.name)[position]? = (origins.map Origin.name)[id]? := by
      rw [List.getElem?_map, List.getElem?_map, inside, found, Option.map_some, named,
        Option.map_some]
    have bound : position < (origins.map Origin.name).length := by
      rw [List.length_map]
      exact (List.getElem?_eq_some_iff.mp inside).1
    obtain rfl := (List.getElem?_inj bound distinct).mp names
    rw [Option.some.inj (inside.symm.trans found)]

end Names

section Resolving

variable {origins : List Origin}

/-- What is remembered is what the types mean. -/
def Remembers (origins : List Origin) (known : Resolved) : Prop :=
  ∀ id value, known.lookup id = some value →
    ∃ origin, origins[id]? = some origin ∧ Denotes (typeNamed? origins) (.named origin.name) value

/-- The types in progress are distinct, and all of them wait for the one of this name. -/
structure Waiting (origins : List Origin) (inProgress : List TypeId) (name : String) : Prop where
  distinct : inProgress.Nodup
  depends : ∀ id ∈ inProgress, ∃ origin, origins[id]? = some origin ∧
    Relation.TransGen (Needs (typeNamed? origins)) origin.name name

theorem Waiting.length_le {inProgress : List TypeId} {name : String}
    (waiting : Waiting origins inProgress name) : inProgress.length ≤ origins.length := by
  have inside : inProgress ⊆ List.range origins.length := by
    intro id member
    obtain ⟨origin, found, -⟩ := waiting.depends id member
    exact List.mem_range.mpr (List.getElem?_eq_some_iff.mp found).1
  simpa using (List.subperm_of_subset waiting.distinct inside).length_le

theorem Waiting.cons {inProgress : List TypeId} {id : TypeId} {origin : Origin} {name : String}
    (waiting : Waiting origins inProgress origin.name) (found : origins[id]? = some origin)
    (fresh : id ∉ inProgress) (needs : Needs (typeNamed? origins) origin.name name) :
    Waiting origins (id :: inProgress) name := by
  refine ⟨List.nodup_cons.mpr ⟨fresh, waiting.distinct⟩, ?_⟩
  intro other member
  rcases List.mem_cons.mp member with rfl | earlier
  · exact ⟨origin, found, .single needs⟩
  · obtain ⟨first, foundFirst, path⟩ := waiting.depends other earlier
    exact ⟨first, foundFirst, path.tail needs⟩

/-- What an instance field adds to a layout; a static field adds nothing. -/
def Adds (find : String → Option Origin) (field : Source.Field)
    (added? : Option (String × ValueType)) : Prop :=
  if field.isStatic then added? = none
  else ∃ type, Denotes find (.read field.type.toList) type ∧ added? = some (field.name, type)

section Named

variable {keeps : Resolved → Prop} {find : String → Option Origin}
  {named : String → Resolution ValueType}

theorem settles_resolve {reference : TypeReference}
    (settled : Settles keeps (named reference.core) (Denotes find (.named reference.core))) :
    Settles keeps (reference.resolve named) (Denotes find reference) := by
  induction reference with
  | named name => exact settled
  | pointer target zeroPage ih =>
    refine Settles.bind (ih settled) ?_ ?_
    · intro value means
      exact Settles.pure (.pointer means)
    · intro result holds
      cases holds with
      | pointer points => exact ⟨_, points⟩

theorem settles_resolveField {field : Source.Field}
    (settled : field.isStatic = false → Settles keeps
      (named (TypeReference.read field.type.toList).core)
      (Denotes find (.named (TypeReference.read field.type.toList).core))) :
    Settles keeps (resolveField named field) (Adds find field) := by
  unfold resolveField Adds
  cases static : field.isStatic with
  | true => exact Settles.pure rfl
  | false =>
    refine Settles.bind (settles_resolve (settled static)) ?_ ?_
    · intro type means
      exact Settles.pure ⟨type, means, rfl⟩
    · intro result holds
      obtain ⟨type, means, -⟩ := holds
      exact ⟨type, means⟩

/-- The record that a declaration lays out. -/
def Lays (find : String → Option Origin) (decl : Source.TypeDecl) (value : ValueType) : Prop :=
  ∃ base added, Denotes find (.named (decl.base?.getD Primitive.object.name)) base ∧
    List.Forall₂ (Adds find) decl.fields added ∧
    value = .record (Layout.extend decl.name base.layout? (added.filterMap id))

theorem settles_resolveDeclared {decl : Source.TypeDecl}
    (settledBase : Settles keeps (named (decl.base?.getD Primitive.object.name))
      (Denotes find (.named (decl.base?.getD Primitive.object.name))))
    (settledFields : ∀ field ∈ decl.fields, field.isStatic = false → Settles keeps
      (named (TypeReference.read field.type.toList).core)
      (Denotes find (.named (TypeReference.read field.type.toList).core))) :
    Settles keeps (resolveDeclared named decl) (Lays find decl) := by
  refine Settles.bind settledBase ?_ ?_
  · intro base based
    refine Settles.bind
      (Settles.mapM fun field member => settles_resolveField (settledFields field member)) ?_ ?_
    · intro added adds
      refine Settles.pure ⟨base, added, based, adds, ?_⟩
      cases base <;> rfl
    · intro value lays
      obtain ⟨-, added, -, adds, -⟩ := lays
      exact ⟨added, adds⟩
  · intro value lays
    obtain ⟨base, -, based, -⟩ := lays
    exact ⟨base, based⟩

theorem exists_denotes_of_adds {fields : List Source.Field}
    {added : List (Option (String × ValueType))} (adds : List.Forall₂ (Adds find) fields added)
    {field : Source.Field} (member : field ∈ fields) (inside : field.isStatic = false) :
    ∃ type, Denotes find (.read field.type.toList) type := by
  induction adds with
  | nil => contradiction
  | cons first _ ih =>
    rcases List.mem_cons.mp member with rfl | later
    · rw [Adds, inside, if_neg Bool.false_ne_true] at first
      obtain ⟨type, means, -⟩ := first
      exact ⟨type, means⟩
    · exact ih later

theorem filterMap_of_adds {fields : List Source.Field} {added : List (Option (String × ValueType))}
    {types : Source.Field → ValueType} (adds : List.Forall₂ (Adds find) fields added)
    (typed : ∀ field ∈ fields, field.isStatic = false →
      Denotes find (.read field.type.toList) (types field)) :
    added.filterMap id =
      (fields.filter (!·.isStatic)).map fun field => (field.name, types field) := by
  induction adds with
  | nil => rfl
  | @cons field added? fields added first _ ih =>
    have rest := ih fun later member => typed later (List.mem_cons_of_mem _ member)
    unfold Adds at first
    cases static : field.isStatic with
    | true =>
      rw [static, if_pos rfl] at first
      simpa [first, static] using rest
    | false =>
      rw [static, if_neg Bool.false_ne_true] at first
      obtain ⟨type, means, rfl⟩ := first
      have same := means.unique (typed field List.mem_cons_self static)
      simpa [static, same] using rest

theorem lays_iff {name : String} {decl : Source.TypeDecl} {value : ValueType}
    (found : find name = some (.declared decl)) :
    Lays find decl value ↔ Denotes find (.named name) value := by
  constructor
  · intro lays
    obtain ⟨base, added, based, adds, rfl⟩ := lays
    have each : ∀ field : Source.Field, ∃ type, field ∈ decl.fields → field.isStatic = false →
        Denotes find (.read field.type.toList) type := by
      intro field
      by_cases placed : field ∈ decl.fields ∧ field.isStatic = false
      · obtain ⟨type, means⟩ := exists_denotes_of_adds adds placed.1 placed.2
        exact ⟨type, fun _ _ => means⟩
      · exact ⟨base, fun member inside => absurd ⟨member, inside⟩ placed⟩
    choose types typed using each
    rw [filterMap_of_adds adds typed]
    exact .declared found based typed
  · intro denotes
    cases denotes with
    | builtin again => cases found.symm.trans again
    | @declared _ _ base types again based typed =>
      obtain rfl := declared_unique found again
      let added := decl.fields.map fun field =>
        if field.isStatic then none else some (field.name, types field)
      have adds : List.Forall₂ (Adds find) decl.fields added := by
        refine List.forall₂_map_right_iff.mpr (List.forall₂_same.mpr ?_)
        intro field member
        unfold Adds
        cases static : field.isStatic with
        | true => rfl
        | false => exact ⟨types field, typed field member static, rfl⟩
      exact ⟨base, added, based, adds, by rw [filterMap_of_adds adds typed]⟩

end Named

theorem settles_remember {id : TypeId} {origin : Origin} {value : ValueType}
    (found : origins[id]? = some origin)
    (means : Denotes (typeNamed? origins) (.named origin.name) value) :
    Settles (Remembers origins) (do modify ((id, value) :: ·); return value)
      (Denotes (typeNamed? origins) (.named origin.name)) := by
  intro known kept
  refine ⟨?_, means⟩
  intro other seen remembered
  by_cases same : other = id
  · rw [same] at remembered ⊢
    rw [List.lookup_cons_self] at remembered
    obtain rfl := Option.some.inj remembered
    exact ⟨origin, found, means⟩
  · rw [List.lookup_cons, beq_eq_false_iff_ne.mpr same] at remembered
    exact kept other seen remembered

theorem settles_findOrigin {name : String} {resolve : Origin × TypeId → Resolution ValueType}
    (settled : ∀ origin id, origins[id]? = some origin → origin.name = name →
      Settles (Remembers origins) (resolve (origin, id))
        (Denotes (typeNamed? origins) (.named origin.name))) :
    Settles (Remembers origins) (do resolve (← findOrigin origins name))
      (Denotes (typeNamed? origins) (.named name)) := by
  unfold findOrigin
  cases sought : findOrigin? origins name with
  | none =>
    intro known _ value means
    obtain ⟨entry, found⟩ := findOrigin?_of_denotes means
    cases sought.symm.trans found
  | some entry =>
    obtain ⟨inside, rfl⟩ := findOrigin?_eq_some sought
    exact settled entry.1 entry.2 inside rfl

/-- The resolution of a name that a type in progress needs. -/
def resolveNeeded (origins : List Origin) (depth : Nat) (inProgress : List TypeId) (name : String) :
    Resolution ValueType := do
  resolveType origins depth inProgress (← findOrigin origins name)

/-- What a resolution does once its type is neither known nor in progress. -/
def resolveFresh (origins : List Origin) (depth : Nat) (inProgress : List TypeId) :
    Origin → Resolution ValueType
  | .builtin kind => pure (.primitive kind)
  | .declared decl => resolveDeclared (resolveNeeded origins depth inProgress) decl

theorem run_resolveType (origins : List Origin) (depth : Nat) (inProgress : List TypeId)
    (origin : Origin) (id : TypeId) (known : Resolved) :
    (resolveType origins (depth + 1) inProgress (origin, id)).run known =
      match known.lookup id with
      | some value => .ok (value, known)
      | none =>
        if id ∈ inProgress then .error (.recursiveLayout origin.name)
        else (do
          let value ← resolveFresh origins depth (id :: inProgress) origin
          modify ((id, value) :: ·)
          return value : Resolution ValueType).run known := by
  simp only [resolveType, StateT.run_bind, StateT.run_get, pure_bind]
  cases known.lookup id with
  | some value => rfl
  | none =>
    by_cases again : id ∈ inProgress
    · simp only [if_pos again, List.contains_iff_mem.mpr again]
      rfl
    · rw [if_neg again]
      simp only [List.contains_iff_mem, if_neg again]
      cases origin <;> rfl

theorem settles_resolveType (distinct : (origins.map Origin.name).Nodup) {depth : Nat}
    {inProgress : List TypeId} {origin : Origin} {id : TypeId}
    (found : origins[id]? = some origin) (waiting : Waiting origins inProgress origin.name)
    (deep : origins.length < depth + inProgress.length) :
    Settles (Remembers origins) (resolveType origins depth inProgress (origin, id))
      (Denotes (typeNamed? origins) (.named origin.name)) := by
  induction depth generalizing inProgress origin id with
  | zero =>
    -- Types in progress do not outnumber the types, so the depth is never used up.
    have length := waiting.length_le
    omega
  | succ depth ih =>
    have declaredAs := typeNamed?_eq_some distinct found
    intro known kept
    rw [run_resolveType]
    cases remembered : known.lookup id with
    | some value =>
      obtain ⟨same, foundSame, means⟩ := kept id value remembered
      obtain rfl := Option.some.inj (foundSame.symm.trans found)
      exact ⟨kept, means⟩
    | none =>
      by_cases again : id ∈ inProgress
      · -- The type waits for itself.
        obtain ⟨same, foundSame, cycle⟩ := waiting.depends id again
        obtain rfl := Option.some.inj (foundSame.symm.trans found)
        simp only [if_pos again]
        intro value means
        exact means.not_needs_self cycle
      · have needed : ∀ name, Needs (typeNamed? origins) origin.name name →
            Settles (Remembers origins) (resolveNeeded origins depth (id :: inProgress) name)
              (Denotes (typeNamed? origins) (.named name)) := by
          intro name needs
          apply settles_findOrigin
          intro other position foundOther named
          refine ih foundOther ?_ (by simp only [List.length_cons]; omega)
          rw [named]
          exact waiting.cons found again needs
        have fresh : Settles (Remembers origins)
            (resolveFresh origins depth (id :: inProgress) origin)
            (Denotes (typeNamed? origins) (.named origin.name)) := by
          cases origin with
          | builtin kind => exact Settles.pure (.builtin declaredAs)
          | declared decl =>
            have laid := settles_resolveDeclared (needed _ (.base declaredAs))
              fun field member inside => needed _ (.field declaredAs member inside)
            exact laid.of_iff fun value => lays_iff declaredAs
        simp only [if_neg again]
        exact Settles.bind fresh (fun value means => settles_remember found means)
          (fun value means => ⟨value, means⟩) known kept

end Resolving

section Scopes

/-- No two types share a name, nor do two fields or two subroutines of a type. -/
structure WellNamed (origins : List Origin) : Prop where
  types : (origins.map Origin.name).Nodup
  fields : ∀ origin ∈ origins, origin.fieldNames.Nodup
  subroutines : ∀ origin ∈ origins, origin.subroutineNames.Nodup

theorem wellNamed_cons {origin : Origin} {origins : List Origin} :
    WellNamed (origin :: origins) ↔
      (∀ other ∈ origins, other.name ≠ origin.name) ∧ origin.fieldNames.Nodup ∧
        origin.subroutineNames.Nodup ∧ WellNamed origins := by
  constructor
  · intro named
    obtain ⟨apart, rest⟩ := List.nodup_cons.mp named.types
    refine ⟨?_, named.fields origin List.mem_cons_self, named.subroutines origin List.mem_cons_self,
      rest, fun other member => named.fields other (List.mem_cons_of_mem _ member),
      fun other member => named.subroutines other (List.mem_cons_of_mem _ member)⟩
    intro other member same
    exact apart (List.mem_map.mpr ⟨other, member, same⟩)
  · intro ⟨apart, fields, subroutines, rest⟩
    refine ⟨?_, List.forall_mem_cons.mpr ⟨fields, rest.fields⟩,
      List.forall_mem_cons.mpr ⟨subroutines, rest.subroutines⟩⟩
    refine List.nodup_cons.mpr ⟨?_, rest.types⟩
    intro member
    obtain ⟨other, inside, same⟩ := List.mem_map.mp member
    exact apart other inside same

theorem checkMembers_eq_ok {type : String} {seen names : List String} :
    checkMembers type seen names = .ok () ↔ names.Nodup ∧ ∀ name ∈ names, name ∉ seen := by
  induction names generalizing seen with
  | nil => simp [checkMembers]
  | cons name names ih =>
    unfold checkMembers
    by_cases again : name ∈ seen
    · simp [again]
    · simp only [List.contains_iff_mem, again, if_false, ih, List.nodup_cons, List.mem_cons]
      grind

theorem checkNames_eq_ok {seen : List String} {origins : List Origin} :
    checkNames seen origins = .ok () ↔
      WellNamed origins ∧ ∀ origin ∈ origins, origin.name ∉ seen := by
  induction origins generalizing seen with
  | nil => exact ⟨fun _ => ⟨⟨.nil, by simp, by simp⟩, by simp⟩, fun _ => rfl⟩
  | cons origin origins ih =>
    unfold checkNames
    by_cases again : origin.name ∈ seen
    · simp [again]
    · have both : ∀ (check rest : Except Fault Unit),
          (check >>= fun _ => rest) = .ok () ↔ check = .ok () ∧ rest = .ok () :=
        fun check rest => bind_eq_ok.trans ⟨fun ⟨_, holds⟩ => holds, fun holds => ⟨(), holds⟩⟩
      simp only [List.contains_iff_mem, again, if_false, both, checkMembers_eq_ok,
        ih, wellNamed_cons, List.mem_cons]
      grind

/-- The values of a scope are what its types mean. -/
structure Scope.Meaningful (scope : Scope) : Prop where
  named : WellNamed scope.origins
  values : List.Forall₂
    (fun origin value => Denotes (typeNamed? scope.origins) (.named origin.name) value)
    scope.origins scope.values

theorem remembers_nil (origins : List Origin) : Remembers origins [] :=
  fun _ _ remembered => nomatch remembered

theorem settles_mapM {origins : List Origin} (distinct : (origins.map Origin.name).Nodup) :
    Settles (Remembers origins)
      (origins.zipIdx.mapM (resolveType origins (origins.length + 1) []))
      (List.Forall₂ (fun origin value => Denotes (typeNamed? origins) (.named origin.name) value)
        origins) := by
  have settled : Settles (Remembers origins)
      (origins.zipIdx.mapM (resolveType origins (origins.length + 1) []))
      (List.Forall₂
        (fun entry value => Denotes (typeNamed? origins) (.named entry.1.name) value)
        origins.zipIdx) := by
    apply Settles.mapM
    intro entry member
    refine settles_resolveType distinct (List.mem_zipIdx_iff_getElem?.mp member)
      ⟨.nil, by simp⟩ (by simp)
  apply settled.of_iff
  intro values
  rw [← List.forall₂_map_left_iff (f := Prod.fst) (R := fun origin value =>
    Denotes (typeNamed? origins) (.named (Origin.name origin)) value), List.zipIdx_map_fst]

theorem Scope.ofModule_eq_ok_iff {module : Source.Module} {scope : Scope} :
    Scope.ofModule module = .ok scope ↔
      scope.origins = originsOf module ∧ scope.Meaningful := by
  constructor
  · intro made
    obtain ⟨⟨⟩, checked, next⟩ := bind_eq_ok.mp made
    obtain ⟨⟨values, known⟩, mapped, result⟩ := bind_eq_ok.mp next
    obtain rfl := pure_eq_ok.mp result
    obtain ⟨named, -⟩ := checkNames_eq_ok.mp checked
    have settled := settles_mapM named.types [] (remembers_nil _)
    rw [mapped] at settled
    exact ⟨rfl, named, settled.2⟩
  · intro ⟨same, named, values⟩
    obtain ⟨origins, meant⟩ := scope
    obtain rfl : origins = originsOf module := same
    have checked : checkNames [] (originsOf module) = .ok () :=
      checkNames_eq_ok.mpr ⟨named, by simp⟩
    have settled := settles_mapM named.types [] (remembers_nil _)
    cases ran : ((originsOf module).zipIdx.mapM
        (resolveType (originsOf module) ((originsOf module).length + 1) [])).run [] with
    | error fault =>
      rw [ran] at settled
      exact absurd values (settled meant)
    | ok outcome =>
      rw [ran] at settled
      have agree : outcome.1 = meant :=
        List.right_unique_forall₂' (fun _ _ _ first second => first.unique second)
          settled.2 values
      refine bind_eq_ok.mpr ⟨(), checked, bind_eq_ok.mpr ⟨outcome, ran, ?_⟩⟩
      rw [← agree]
      rfl

section Lookup

variable {scope : Scope} (meaningful : scope.Meaningful)
include meaningful

theorem Scope.Meaningful.length_eq : scope.values.length = scope.origins.length :=
  meaningful.values.length_eq.symm

theorem Scope.Meaningful.getElem? {id : TypeId} {origin : Origin}
    (found : scope.origins[id]? = some origin) :
    ∃ value, scope.values[id]? = some value ∧
      Denotes (typeNamed? scope.origins) (.named origin.name) value := by
  have valued := rel_getElem? meaningful.values id
  rw [found] at valued
  generalize scope.values[id]? = value? at valued
  cases valued with
  | some means => exact ⟨_, rfl, means⟩

theorem Scope.Meaningful.named_eq_ok {name : String} {value : ValueType} :
    scope.named name = .ok value ↔ Denotes (typeNamed? scope.origins) (.named name) value := by
  unfold Scope.named findOrigin
  cases sought : findOrigin? scope.origins name with
  | none =>
    refine ⟨fun found => (nomatch found), ?_⟩
    intro means
    obtain ⟨entry, found⟩ := findOrigin?_of_denotes means
    cases sought.symm.trans found
  | some entry =>
    obtain ⟨inside, rfl⟩ := findOrigin?_eq_some sought
    obtain ⟨meant, valued, means⟩ := meaningful.getElem? inside
    change (match scope.values[entry.2]? with
      | some value => pure value
      | none => throw (.unresolvedType entry.1.name) : Except Fault ValueType) = .ok value ↔ _
    rw [valued]
    refine ⟨?_, fun denotes => congrArg _ (means.unique denotes)⟩
    intro same
    obtain rfl := Except.ok.inj same
    exact means

theorem Scope.Meaningful.valueType_eq_ok {reference : String} {value : ValueType} :
    scope.valueType reference = .ok value ↔
      Denotes (typeNamed? scope.origins) (.read reference.toList) value := by
  unfold Scope.valueType
  generalize TypeReference.read reference.toList = reference
  induction reference generalizing value with
  | named name => exact meaningful.named_eq_ok
  | pointer target zeroPage ih =>
    constructor
    · intro resolved
      obtain ⟨pointed, found, made⟩ := bind_eq_ok.mp resolved
      obtain rfl := pure_eq_ok.mp made
      exact .pointer (ih.mp found)
    · intro means
      cases means with
      | pointer points => exact bind_eq_ok.mpr ⟨_, ih.mpr points, rfl⟩

end Lookup

end Scopes

end Cartridge.Program
