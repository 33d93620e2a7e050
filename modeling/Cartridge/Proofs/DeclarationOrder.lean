import Cartridge.Proofs.DeclaredTypes
import Mathlib.Data.List.Perm.Basic

/-!
The order of declarations.

Types are referred to by name only, so their meanings are the same in every order. Positions are
not: they are the ids in the table. What is resolved against two orders of the same declarations is
therefore compared by the names that ids stand for.
-/

namespace Cartridge.Program

open Emit (bind_eq_ok pure_eq_ok)

def SameOperand (first second : Naming) : Code.Operand → Code.Operand → Prop
  | .field id, .field other =>
    ∃ member, first.field id = some member ∧ second.field other = some member
  | .method id, .method other =>
    ∃ member, first.method id = some member ∧ second.method other = some member
  | operand, other => operand = other

/-- Fields that differ only in their ids. -/
def SameField (field other : Field) : Prop :=
  other = { field with id := other.id }

/-- Subroutines that differ only in the ids they have and refer to. -/
structure SameSubroutine (first second : Naming) (subroutine other : Subroutine) : Prop where
  instructions : List.Forall₂
    (fun instruction counterpart => instruction.opcode = counterpart.opcode ∧
      SameOperand first second instruction.operand counterpart.operand)
    subroutine.instructions other.instructions
  rest : other = { subroutine with id := other.id, instructions := other.instructions }

/-- Types that differ only in the ids they and their members have and refer to. -/
structure SameType (first second : Naming) (type other : DeclaredType) : Prop where
  name : type.name = other.name
  base : type.base?.bind first.type = other.base?.bind second.type
  value : type.value = other.value
  fields : List.Forall₂ SameField type.fields other.fields
  subroutines : List.Forall₂ (SameSubroutine first second) type.subroutines other.subroutines

namespace SameType

variable {first second : Naming} {type other : DeclaredType}

theorem size_eq (same : SameType first second type other) : type.size = other.size := by
  rw [DeclaredType.size, DeclaredType.size, same.value]

theorem ownSize_eq (same : SameType first second type other) : type.ownSize = other.ownSize := by
  rw [DeclaredType.ownSize, DeclaredType.ownSize, same.value]

end SameType

section Scopes

/-- The same declarations in two orders. -/
structure Reordered (scope other : Scope) : Prop where
  meaningful : scope.Meaningful
  meaningfulOther : other.Meaningful
  perm : scope.origins.Perm other.origins

theorem WellNamed.perm {origins others : List Origin} (named : WellNamed origins)
    (perm : origins.Perm others) : WellNamed others where
  types := (perm.map _).nodup named.types
  fields origin member := named.fields origin (perm.mem_iff.mpr member)
  subroutines origin member := named.subroutines origin (perm.mem_iff.mpr member)

theorem typeNamed?_perm {origins others : List Origin} (named : WellNamed origins)
    (perm : origins.Perm others) : typeNamed? others = typeNamed? origins := by
  funext name
  cases sought : typeNamed? origins name with
  | none =>
    refine List.find?_eq_none.mpr ?_
    intro origin member
    exact List.find?_eq_none.mp sought origin (perm.mem_iff.mpr member)
  | some origin =>
    have same : origin.name = name := by simpa using List.find?_some sought
    obtain ⟨id, found⟩ := List.getElem?_of_mem (perm.mem_iff.mp (List.mem_of_find?_eq_some sought))
    rw [← same]
    exact typeNamed?_eq_some (named.perm perm).types found

theorem Scope.Meaningful.exists_reordered {scope : Scope} (meaningful : scope.Meaningful)
    {origins : List Origin} (perm : scope.origins.Perm origins) :
    ∃ other : Scope, other.origins = origins ∧ Reordered scope other := by
  obtain ⟨values, meant, -⟩ := List.perm_comp_forall₂ perm.symm meaningful.values
  refine ⟨⟨origins, values⟩, rfl, meaningful, ⟨meaningful.named.perm perm, ?_⟩, perm⟩
  simp only [typeNamed?_perm meaningful.named perm]
  exact meant

variable {scope other : Scope}

/-- The same origin at two positions. -/
def SamePlace (scope other : Scope) (id position : TypeId) : Prop :=
  ∃ origin, scope.origins[id]? = some origin ∧ other.origins[position]? = some origin

theorem Reordered.rel_findOrigin? (reordered : Reordered scope other) (name : String) :
    Option.Rel
      (fun entry counterpart => entry.1 = counterpart.1 ∧
        SamePlace scope other entry.2 counterpart.2)
      (findOrigin? scope.origins name) (findOrigin? other.origins name) := by
  cases sought : findOrigin? scope.origins name with
  | none =>
    cases found : findOrigin? other.origins name with
    | none => exact .none
    | some entry =>
      obtain ⟨inside, rfl⟩ := findOrigin?_eq_some found
      have listed := reordered.perm.mem_iff.mpr (List.mem_of_getElem? inside)
      obtain ⟨id, here⟩ := List.getElem?_of_mem listed
      cases sought.symm.trans (findOrigin?_of_getElem? reordered.meaningful.named.types here)
  | some entry =>
    obtain ⟨inside, rfl⟩ := findOrigin?_eq_some sought
    have listed := reordered.perm.mem_iff.mp (List.mem_of_getElem? inside)
    obtain ⟨position, there⟩ := List.getElem?_of_mem listed
    rw [findOrigin?_of_getElem? reordered.meaningfulOther.named.types there]
    exact .some ⟨rfl, entry.1, inside, there⟩

theorem Reordered.rel_base? (reordered : Reordered scope other) {id position : TypeId}
    (same : SamePlace scope other id position) :
    Option.Rel (SamePlace scope other) (scope.base? id) (other.base? position) := by
  obtain ⟨origin, here, there⟩ := same
  unfold Scope.base?
  simp only [here, there, Option.bind_eq_bind, Option.bind_some]
  cases origin.baseName? with
  | none => exact .none
  | some name =>
    have found := reordered.rel_findOrigin? name
    simp only [Option.bind_some]
    generalize findOrigin? scope.origins name = entry?,
      findOrigin? other.origins name = counterpart? at found
    cases found with
    | none => exact .none
    | some related => exact .some related.2

/-- Members of the same name, at two places. -/
def SameMember (scope other : Scope) (members : Origin → List String)
    (place counterpart : TypeId × Nat) : Prop :=
  ∃ name, scope.memberName? members place.1 place.2 = some name ∧
    other.memberName? members counterpart.1 counterpart.2 = some name

theorem Reordered.rel_findMember? (reordered : Reordered scope other)
    (members : Origin → List String) (name : String) (steps : Nat) {id position : TypeId}
    (same : SamePlace scope other id position) :
    Option.Rel (SameMember scope other members) (scope.findMember? members name steps id)
      (other.findMember? members name steps position) := by
  induction steps generalizing id position with
  | zero => exact .none
  | succ steps ih =>
    have bases := reordered.rel_base? same
    obtain ⟨origin, here, there⟩ := same
    simp only [Scope.findMember?, here, there]
    cases inside : (members origin).findIdx? (· == name) with
    | some index =>
      have bound := (List.findIdx?_eq_some_iff_getElem.mp inside).1
      exact .some ⟨⟨origin.name, (members origin)[index]⟩,
        by simp [Scope.memberName?, here, bound], by simp [Scope.memberName?, there, bound]⟩
    | none =>
      simp only
      generalize scope.base? id = base?, other.base? position = counterpart? at bases
      cases bases with
      | none => exact .none
      | some related => exact ih related

/-- A member is found in both orders, or in neither. -/
theorem Reordered.rel_member? (reordered : Reordered scope other) (members : Origin → List String)
    (member : Source.MemberName) :
    Option.Rel (SameMember scope other members) (scope.member? members member)
      (other.member? members member) := by
  have types := reordered.rel_findOrigin? member.type
  unfold Scope.member?
  rw [← reordered.perm.length_eq]
  generalize findOrigin? scope.origins member.type = entry?,
    findOrigin? other.origins member.type = counterpart? at types
  cases types with
  | none => exact .none
  | some related =>
    exact reordered.rel_findMember? members member.name scope.origins.length related.2

theorem Reordered.rel_field (reordered : Reordered scope other) (member : Source.MemberName) :
    Option.Rel
      (fun id counterpart => ∃ name, scope.naming.field id = some name ∧
        other.naming.field counterpart = some name)
      (scope.field member).toOption (other.field member).toOption := by
  have members := reordered.rel_member? Origin.fieldNames member
  unfold Scope.field
  generalize scope.member? Origin.fieldNames member = place?,
    other.member? Origin.fieldNames member = counterpart? at members
  cases members with
  | none => exact .none
  | some named => exact .some named

theorem Reordered.rel_subroutine (reordered : Reordered scope other) (member : Source.MemberName) :
    Option.Rel
      (fun id counterpart => ∃ name, scope.naming.method id = some name ∧
        other.naming.method counterpart = some name)
      (scope.subroutine member).toOption (other.subroutine member).toOption := by
  have members := reordered.rel_member? Origin.subroutineNames member
  unfold Scope.subroutine
  generalize scope.member? Origin.subroutineNames member = place?,
    other.member? Origin.subroutineNames member = counterpart? at members
  cases members with
  | none => exact .none
  | some named => exact .some named

end Scopes

/-- What one computation gives, the other gives too, up to a relation. -/
def Carries {ε α β : Type} (related : α → β → Prop) (one : Except ε α) (other : Except ε β) :
    Prop :=
  ∀ value, one = .ok value → ∃ counterpart, other = .ok counterpart ∧ related value counterpart

namespace Carries

variable {ε α β γ δ : Type}

theorem of_rel {related : α → β → Prop} {one : Except ε α} {other : Except ε β}
    (all : Option.Rel related one.toOption other.toOption) : Carries related one other := by
  intro value found
  subst found
  cases other with
  | error fault => cases all
  | ok counterpart =>
    cases all with
    | some holds => exact ⟨counterpart, rfl, holds⟩

theorem pure {related : α → β → Prop} {value : α} {counterpart : β}
    (holds : related value counterpart) :
    Carries related (Pure.pure value : Except ε α) (Pure.pure counterpart) := by
  intro found same
  obtain rfl := pure_eq_ok.mp same
  exact ⟨counterpart, rfl, holds⟩

theorem error {related : α → β → Prop} {fault : ε} {other : Except ε β} :
    Carries related (.error fault) other := by
  intro value found
  contradiction

theorem refl (one : Except ε α) : Carries Eq one one :=
  fun value found => ⟨value, found, rfl⟩

theorem bind {related : α → β → Prop} {result : γ → δ → Prop} {one : Except ε α}
    {other : Except ε β} {next : α → Except ε γ} {nextOther : β → Except ε δ}
    (first : Carries related one other)
    (rest : ∀ value counterpart, related value counterpart →
      Carries result (next value) (nextOther counterpart)) :
    Carries result (one >>= next) (other >>= nextOther) := by
  intro value made
  obtain ⟨middle, found, further⟩ := bind_eq_ok.mp made
  obtain ⟨counterpart, foundOther, holds⟩ := first middle found
  obtain ⟨last, made, same⟩ := rest middle counterpart holds value further
  exact ⟨last, bind_eq_ok.mpr ⟨counterpart, foundOther, made⟩, same⟩

theorem mapM {entries : List α} {one : α → Except ε γ} {other : α → Except ε δ}
    {related : γ → δ → Prop} (each : ∀ entry ∈ entries, Carries related (one entry) (other entry)) :
    Carries (List.Forall₂ related) (entries.mapM one) (entries.mapM other) := by
  induction entries with
  | nil => exact Carries.pure .nil
  | cons entry entries ih =>
    rw [List.mapM_cons, List.mapM_cons]
    refine Carries.bind (each entry List.mem_cons_self) ?_
    intro first firstOther head
    refine Carries.bind (ih fun later member => each later (List.mem_cons_of_mem _ member)) ?_
    intro rest restOther tail
    exact Carries.pure (.cons head tail)

end Carries

section Members

variable {scope other : Scope} (reordered : Reordered scope other)
include reordered

theorem Reordered.valueType (reference : String) :
    Carries Eq (scope.valueType reference) (other.valueType reference) := by
  intro value resolved
  refine ⟨value, ?_, rfl⟩
  rw [reordered.meaningfulOther.valueType_eq_ok,
    typeNamed?_perm reordered.meaningful.named reordered.perm]
  exact reordered.meaningful.valueType_eq_ok.mp resolved

theorem Reordered.operand {fullName : String} {parameters locals : List ValueType} {length : Nat}
    (index : Nat) (written? : Option Source.Operand) :
    Carries (SameOperand scope.naming other.naming)
      (Resolving.operand ⟨scope, fullName, parameters, locals, length⟩ index written?)
      (Resolving.operand ⟨other, fullName, parameters, locals, length⟩ index written?) := by
  cases written? with
  | none => exact Carries.pure rfl
  | some written =>
    cases written with
    | constant value => exact Carries.pure rfl
    | type reference =>
      refine Carries.bind (reordered.valueType reference) ?_
      intro value _ same
      subst same
      exact Carries.pure rfl
    | field member =>
      refine Carries.bind (.of_rel (reordered.rel_field member)) ?_
      intro id counterpart named
      exact Carries.pure named
    | method member =>
      refine Carries.bind (.of_rel (reordered.rel_subroutine member)) ?_
      intro id counterpart named
      exact Carries.pure named
    | «local» slot =>
      simp only [Resolving.operand]
      split
      next => exact Carries.pure rfl
      next => exact Carries.error
    | argument slot =>
      simp only [Resolving.operand]
      split
      next => exact Carries.pure rfl
      next => exact Carries.error
    | target target =>
      simp only [Resolving.operand]
      split
      next => exact Carries.pure rfl
      next => exact Carries.error

omit reordered in
theorem checkKind_eq {first second : Naming} {operand counterpart : Code.Operand}
    (same : SameOperand first second operand counterpart) {fullName : String}
    {parameters locals : List ValueType} {length : Nat} (index : Nat) (opcode : Code.Opcode) :
    Resolving.checkKind ⟨other, fullName, parameters, locals, length⟩ index opcode counterpart =
      Resolving.checkKind ⟨scope, fullName, parameters, locals, length⟩ index opcode operand := by
  cases operand <;> cases counterpart <;> cases same <;> rfl

omit reordered in
theorem checkConstant_eq {first second : Naming} {operand counterpart : Code.Operand}
    (same : SameOperand first second operand counterpart) {fullName : String}
    {parameters locals : List ValueType} {length : Nat} (index : Nat) :
    Resolving.checkConstant ⟨other, fullName, parameters, locals, length⟩ index counterpart =
      Resolving.checkConstant ⟨scope, fullName, parameters, locals, length⟩ index operand := by
  cases operand <;> cases counterpart <;> cases same <;> rfl

theorem Reordered.instruction {fullName : String} {parameters locals : List ValueType}
    {length : Nat} (index : Nat) (source : Source.Instruction) :
    Carries
      (fun instruction counterpart => instruction.opcode = counterpart.opcode ∧
        SameOperand scope.naming other.naming instruction.operand counterpart.operand)
      (Resolving.instruction ⟨scope, fullName, parameters, locals, length⟩ index source)
      (Resolving.instruction ⟨other, fullName, parameters, locals, length⟩ index source) := by
  refine Carries.bind (reordered.operand index source.operand?) ?_
  intro operand counterpart same
  rw [checkKind_eq same, checkConstant_eq same]
  refine Carries.bind (.refl _) ?_
  intro _ _ _
  refine Carries.bind (.refl _) ?_
  intro _ _ _
  exact Carries.pure ⟨rfl, same⟩

theorem Reordered.valueTypes (references : List String) :
    Carries Eq (references.mapM scope.valueType) (references.mapM other.valueType) := by
  have carried : Carries (List.Forall₂ Eq) (references.mapM scope.valueType)
      (references.mapM other.valueType) :=
    Carries.mapM fun reference _ => reordered.valueType reference
  rwa [List.forall₂_eq_eq_eq] at carried

theorem Reordered.resolveSubroutine (type : String) (id position : SubroutineId)
    (source : Source.Subroutine) :
    Carries (SameSubroutine scope.naming other.naming)
      (Program.resolveSubroutine scope type id source)
      (Program.resolveSubroutine other type position source) := by
  refine Carries.bind (reordered.valueTypes source.parameters) ?_
  intro parameters _ same
  subst same
  refine Carries.bind (reordered.valueTypes source.locals) ?_
  intro locals _ same
  subst same
  refine Carries.bind (reordered.valueType source.returns) ?_
  intro returns _ same
  subst same
  refine Carries.bind (Carries.mapM fun entry _ => reordered.instruction entry.2 entry.1) ?_
  intro instructions counterparts related
  cases source.intrinsic? with
  | none => exact Carries.pure ⟨related, rfl⟩
  | some intrinsic =>
    refine Carries.bind (.refl _) ?_
    intro intrinsic? _ same
    subst same
    exact Carries.pure ⟨related, rfl⟩

theorem Reordered.resolveFields (owner position : TypeId) (index offset : Nat)
    (sources : List Source.Field) :
    Carries (List.Forall₂ SameField)
      (Program.resolveFields scope owner index offset sources)
      (Program.resolveFields other position index offset sources) := by
  induction sources generalizing index offset with
  | nil => exact Carries.pure .nil
  | cons source sources ih =>
    refine Carries.bind (reordered.valueType source.type) ?_
    intro type _ same
    subst same
    simp only
    split
    next =>
      refine Carries.bind (ih (index + 1) offset) ?_
      intro fields counterparts related
      exact Carries.pure (.cons rfl related)
    next =>
      refine Carries.bind (ih (index + 1) (offset + type.size)) ?_
      intro fields counterparts related
      exact Carries.pure (.cons rfl related)

omit reordered in
theorem naming_type_of_samePlace {id position : TypeId} (same : SamePlace scope other id position) :
    scope.naming.type id = other.naming.type position := by
  obtain ⟨origin, here, there⟩ := same
  simp only [Scope.naming, here, there]

theorem Reordered.bases_eq {id position : TypeId} (same : SamePlace scope other id position) :
    (scope.base? id).bind scope.naming.type = (other.base? position).bind other.naming.type := by
  have bases := reordered.rel_base? same
  generalize scope.base? id = base?, other.base? position = counterpart? at bases
  cases bases with
  | none => rfl
  | some related => exact naming_type_of_samePlace related

theorem Reordered.resolveOrigin {id position : TypeId} (same : SamePlace scope other id position)
    (value : ValueType) (origin : Origin) :
    Carries (SameType scope.naming other.naming)
      (Program.resolveOrigin scope id value origin)
      (Program.resolveOrigin other position value origin) := by
  have bases := reordered.bases_eq same
  cases origin with
  | builtin kind => exact Carries.pure ⟨rfl, bases, rfl, .nil, .nil⟩
  | declared decl =>
    refine Carries.bind (.refl (checkCounts decl)) ?_
    intro _ _ _
    refine Carries.bind (reordered.resolveFields id position 0 (ownStart value) decl.fields) ?_
    intro fields fieldCounterparts relatedFields
    refine Carries.bind (Carries.mapM fun entry _ => reordered.resolveSubroutine decl.name
      ⟨id, entry.2⟩ ⟨position, entry.2⟩ entry.1) ?_
    intro subroutines counterparts related
    exact Carries.pure ⟨rfl, bases, rfl, relatedFields, related⟩

end Members

section Tables

variable {scope other : Scope} {table otherTable : TypeTable}

theorem Reordered.sameType (reordered : Reordered scope other)
    (built : buildTable scope = .ok table) (builtOther : buildTable other = .ok otherTable)
    {origin : Origin} {id position : TypeId} {type counterpart : DeclaredType}
    (stands : StandsFor scope (origin, id) type)
    (standsOther : StandsFor other (origin, position) counterpart) :
    SameType table.naming otherTable.naming type counterpart := by
  rw [naming_of_buildTable reordered.meaningful built,
    naming_of_buildTable reordered.meaningfulOther builtOther]
  obtain ⟨here, value, means, resolved⟩ := stands
  obtain ⟨there, valueOther, meansOther, resolvedOther⟩ := standsOther
  rw [typeNamed?_perm reordered.meaningful.named reordered.perm] at meansOther
  obtain rfl := means.unique meansOther
  obtain ⟨made, foundMade, related⟩ :=
    reordered.resolveOrigin ⟨origin, here, there⟩ value origin type resolved
  obtain rfl := Except.ok.inj (foundMade.symm.trans resolvedOther)
  exact related

theorem Reordered.rel_lookup? (reordered : Reordered scope other)
    (built : buildTable scope = .ok table) (builtOther : buildTable other = .ok otherTable)
    (name : String) :
    Option.Rel (SameType table.naming otherTable.naming) (table.lookup? name)
      (otherTable.lookup? name) := by
  have entries := reordered.rel_findOrigin? name
  have here := Program.rel_lookup? reordered.meaningful built name
  have there := Program.rel_lookup? reordered.meaningfulOther builtOther name
  generalize findOrigin? scope.origins name = entry?,
    findOrigin? other.origins name = counterpart? at entries here there
  generalize table.lookup? name = type?, otherTable.lookup? name = otherType? at here there
  cases entries with
  | none =>
    cases here
    cases there
    exact .none
  | @some entry counterpart related =>
    obtain ⟨origin, position⟩ := counterpart
    obtain rfl : entry.1 = origin := related.1
    cases here with
    | some stands =>
      cases there with
      | some standsOther => exact .some (reordered.sameType built builtOther stands standsOther)

theorem Reordered.exists_buildTable (reordered : Reordered scope other)
    (built : buildTable scope = .ok table) : ∃ otherTable, buildTable other = .ok otherTable := by
  apply Program.exists_buildTable reordered.meaningfulOther
  intro position origin value there means
  obtain ⟨id, here⟩ :=
    List.getElem?_of_mem (reordered.perm.mem_iff.mpr (List.mem_of_getElem? there))
  obtain ⟨type, -, -, meant, meansHere, resolved⟩ := lookup?_of_findOrigin? reordered.meaningful
    built (findOrigin?_of_getElem? reordered.meaningful.named.types here)
  rw [typeNamed?_perm reordered.meaningful.named reordered.perm] at means
  obtain rfl := meansHere.unique means
  obtain ⟨made, resolvedOther, -⟩ :=
    reordered.resolveOrigin ⟨origin, here, there⟩ meant origin type resolved
  exact ⟨made, resolvedOther⟩

/-- The types of one table, put in the order of the other. -/
theorem Reordered.exists_arranged (reordered : Reordered scope other)
    (built : buildTable scope = .ok table) (builtOther : buildTable other = .ok otherTable) :
    ∃ arranged : List DeclaredType, arranged.Perm table.types ∧
      List.Forall₂ (SameType table.naming otherTable.naming) arranged otherTable.types := by
  obtain ⟨arranged, stands, perm⟩ := List.perm_comp_forall₂ reordered.perm.symm
    (forall₂_origins reordered.meaningful built)
  refine ⟨arranged, perm, ?_⟩
  refine forall₂_of_both stands (forall₂_origins reordered.meaningfulOther builtOther) ?_
  intro origin type counterpart ⟨id, here⟩ ⟨position, there⟩
  exact reordered.sameType built builtOther here there

theorem Reordered.findEntry (reordered : Reordered scope other)
    (built : buildTable scope = .ok table) (builtOther : buildTable other = .ok otherTable) :
    Carries
      (fun id counterpart => ∃ entry entryOther, entry ∈ table.subroutines ∧ entry.id = id ∧
        entryOther ∈ otherTable.subroutines ∧ entryOther.id = counterpart ∧
        entry.fullName = entryOther.fullName)
      (Program.findEntry table) (Program.findEntry otherTable) := by
  obtain ⟨arranged, perm, types⟩ := reordered.exists_arranged built builtOther
  have subroutines : List.Forall₂ (SameSubroutine table.naming otherTable.naming)
      (arranged.flatMap (·.subroutines)) otherTable.subroutines :=
    List.rel_flatMap types fun _ _ same => same.subroutines
  have entries : List.Forall₂ (SameSubroutine table.naming otherTable.naming)
      ((arranged.flatMap (·.subroutines)).filter (·.isEntry))
      (otherTable.subroutines.filter (·.isEntry)) := by
    refine List.rel_filter ?_ subroutines
    intro subroutine counterpart same
    rw [same.rest]
  have arrangedEntries := (perm.flatMap_right (·.subroutines)).filter (·.isEntry)
  intro id found
  obtain ⟨entry, single, rfl⟩ := findEntry_eq_ok.mp found
  change List.Perm _ (table.subroutines.filter (·.isEntry)) at arrangedEntries
  rw [single, List.perm_singleton] at arrangedEntries
  rw [arrangedEntries] at entries
  obtain ⟨counterpart, rest, same, none, singleOther⟩ := List.forall₂_cons_left_iff.mp entries
  rw [List.forall₂_nil_left_iff.mp none] at singleOther
  have member : entry ∈ table.subroutines.filter (·.isEntry) := by simp [single]
  have memberOther : counterpart ∈ otherTable.subroutines.filter (·.isEntry) := by
    simp [singleOther]
  refine ⟨counterpart.id, findEntry_eq_ok.mpr ⟨counterpart, singleOther, rfl⟩, entry, counterpart,
    (List.mem_filter.mp member).1, rfl, (List.mem_filter.mp memberOther).1, rfl, ?_⟩
  rw [same.rest]

end Tables

section Modules

/-- What two resolved modules have in common: the types of each name, what member references stand
for, and where execution starts. -/
structure Agree (first second : Source.Module) (program other : Program) : Prop where
  types : ∀ name, Option.Rel
    (fun type counterpart => type.size = counterpart.size ∧ type.ownSize = counterpart.ownSize ∧
      SameType program.types.naming other.types.naming type counterpart)
    (program.types.lookup? name) (other.types.lookup? name)
  references : ∀ scope otherScope, Scope.ofModule first = .ok scope →
    Scope.ofModule second = .ok otherScope → ∀ member,
      Option.Rel
        (fun id counterpart => ∃ name, program.types.naming.field id = some name ∧
          other.types.naming.field counterpart = some name)
        (scope.field member).toOption (otherScope.field member).toOption ∧
      Option.Rel
        (fun id counterpart => ∃ name, program.types.naming.method id = some name ∧
          other.types.naming.method counterpart = some name)
        (scope.subroutine member).toOption (otherScope.subroutine member).toOption
  entry : ∃ entry counterpart, program.types.subroutine? program.entry = some entry ∧
    other.types.subroutine? other.entry = some counterpart ∧
    entry.fullName = counterpart.fullName

variable {first second : Source.Module} {program : Program}

theorem exists_agree (permuted : first.types.Perm second.types)
    (made : ofModule first = .ok program) :
    ∃ other, ofModule second = .ok other ∧ Agree first second program other := by
  obtain ⟨scope, named, built, found⟩ := ofModule_eq_ok_iff.mp made
  obtain ⟨same, meaningful⟩ := Scope.ofModule_eq_ok_iff.mp named
  have perm : scope.origins.Perm (originsOf second) := by
    rw [same]
    exact (permuted.map Origin.declared).append_left _
  obtain ⟨otherScope, sameOther, reordered⟩ := meaningful.exists_reordered perm
  have namedOther : Scope.ofModule second = .ok otherScope :=
    Scope.ofModule_eq_ok_iff.mpr ⟨sameOther, reordered.meaningfulOther⟩
  obtain ⟨otherTypes, builtOther⟩ := reordered.exists_buildTable built
  obtain ⟨otherEntry, foundOther, entry, counterpart, member, id, memberOther, idOther, fullName⟩ :=
    reordered.findEntry built builtOther program.entry found
  let other : Program := ⟨otherTypes, otherEntry⟩
  have madeOther : ofModule second = .ok other :=
    ofModule_eq_ok_iff.mpr ⟨otherScope, namedOther, builtOther, foundOther⟩
  refine ⟨other, madeOther, ?_, ?_, entry, counterpart, ?_, ?_, fullName⟩
  · intro name
    have related := reordered.rel_lookup? built builtOther name
    change Option.Rel _ _ (otherTypes.lookup? name)
    generalize program.types.lookup? name = type?, otherTypes.lookup? name = counterpart? at related
    cases related with
    | none => exact .none
    | some same => exact .some ⟨same.size_eq, same.ownSize_eq, same⟩
  · intro scope' otherScope' namedHere namedThere member
    obtain rfl := Except.ok.inj (namedHere.symm.trans named)
    obtain rfl := Except.ok.inj (namedThere.symm.trans namedOther)
    rw [naming_of_buildTable meaningful built,
      naming_of_buildTable reordered.meaningfulOther builtOther]
    exact ⟨reordered.rel_field member, reordered.rel_subroutine member⟩
  · rw [← id]
    exact (ofModule_eq_ok made).1.subroutine?_id member
  · change otherTypes.subroutine? otherEntry = _
    rw [← idOther]
    exact (ofModule_eq_ok madeOther).1.subroutine?_id memberOther

theorem ofModule_perm (permuted : first.types.Perm second.types) :
    ((∃ program, ofModule first = .ok program) ↔ ∃ other, ofModule second = .ok other) ∧
      ∀ program other, ofModule first = .ok program → ofModule second = .ok other →
        Agree first second program other := by
  refine ⟨⟨?_, ?_⟩, ?_⟩
  · intro ⟨program, made⟩
    obtain ⟨other, madeOther, -⟩ := exists_agree permuted made
    exact ⟨other, madeOther⟩
  · intro ⟨other, made⟩
    obtain ⟨program, madeOther, -⟩ := exists_agree permuted.symm made
    exact ⟨program, madeOther⟩
  · intro program other made madeOther
    obtain ⟨counterpart, found, agree⟩ := exists_agree permuted made
    obtain rfl := Except.ok.inj (found.symm.trans madeOther)
    exact agree

/-- A game that uses members of a base, declared behind what extends it. -/
def patrols : Source.Module :=
  { types := [{ name := "Game"
                subroutines :=
      [{ name := "Main", isEntry := true
         instructions :=
          [⟨"ldsfld", some (.field ⟨"Guard", "Count"⟩)⟩, ⟨"pop", none⟩,
            ⟨"call", some (.method ⟨"Guard", "Step"⟩)⟩, ⟨"ret", none⟩] }] },
              { name := "Guard", base? := some "Walker", fields := [⟨"Path", "Point*", false⟩] },
              { name := "Walker"
                fields := [⟨"Count", "byte", true⟩, ⟨"Place", "Point", false⟩]
                subroutines := [{ name := "Step", instructions := [⟨"ret", none⟩] }] },
              { name := "Point", fields := [⟨"X", "byte", false⟩, ⟨"Y", "byte", false⟩] }] }

theorem ofModule_perm_patrols :
    ∃ program other, ofModule patrols = .ok program ∧
      ofModule ⟨patrols.types.reverse⟩ = .ok other ∧ program.entry ≠ other.entry ∧
      Agree patrols ⟨patrols.types.reverse⟩ program other := by
  obtain ⟨program, made, place⟩ := exists_of_any
    (show (ofModule patrols).toOption.any (·.entry = ⟨5, 0⟩) = true by decide +kernel)
  obtain ⟨other, madeOther, placeOther⟩ := exists_of_any
    (show (ofModule ⟨patrols.types.reverse⟩).toOption.any (·.entry = ⟨8, 0⟩) = true by
      decide +kernel)
  refine ⟨program, other, made, madeOther, ?_, ?_⟩
  · rw [of_decide_eq_true place, of_decide_eq_true placeOther]
    decide
  · exact (ofModule_perm (List.reverse_perm patrols.types).symm).2 program other made madeOther

end Modules

end Cartridge.Program
