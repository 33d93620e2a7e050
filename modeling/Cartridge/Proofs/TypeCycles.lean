import Cartridge.Proofs.DeclaredTypes

/-!
Types that cannot be resolved.

Resolution has two faults of its own: a name that is needed and not declared, and a type that is met
again while it is being resolved. The second one shows a cycle, since every type in progress waits
for the one at hand; and no type on a cycle is ever resolved, since it would have to be resolved
before itself. Where all names are declared, the fault of recursion is therefore exactly a cycle.
Pointers count as well: a type that merely points to itself is refused although it does not hold
itself.
-/

namespace Cartridge.Program

open Emit (bind_eq_ok pure_eq_ok)

/-- What a type holds itself: its base and the types of its instance fields, but nothing that a
field only points to. -/
inductive Holds (find : String → Option Origin) : String → String → Prop
  | base {name : String} {decl : Source.TypeDecl} (found : find name = some (.declared decl)) :
    Holds find name (decl.base?.getD Primitive.object.name)
  | field {name part : String} {decl : Source.TypeDecl} {field : Source.Field}
    (found : find name = some (.declared decl)) (member : field ∈ decl.fields)
    (inside : field.isStatic = false) (whole : TypeReference.read field.type.toList = .named part) :
    Holds find name part

theorem Holds.needs {find : String → Option Origin} {name part : String}
    (holds : Holds find name part) : Needs find name part := by
  cases holds with
  | base found => exact .base found
  | field found member inside whole =>
    have needs := Needs.field found member inside
    rwa [whole] at needs

/-- A fault of resolution that the declarations account for. -/
inductive Justified (find : String → Option Origin) : Fault → Prop
  | recursive {name : String} (cycle : Relation.TransGen (Needs find) name name) :
    Justified find (.recursiveLayout name)
  | unresolved {user name : String} (needs : Needs find user name) (missing : find name = none) :
    Justified find (.unresolvedType name)

/-- A resolution that fails with certain faults only. -/
def Blames {α : Type} (resolution : Resolution α) (faults : Fault → Prop) : Prop :=
  ∀ known fault, resolution.run known = .error fault → faults fault

namespace Blames

variable {α β : Type} {faults : Fault → Prop}

theorem pure (value : α) : Blames (Pure.pure value : Resolution α) faults :=
  fun _ _ failed => nomatch failed

theorem bind {first : Resolution α} {next : α → Resolution β} (blames : Blames first faults)
    (rest : ∀ value, Blames (next value) faults) : Blames (first >>= next) faults := by
  intro known fault failed
  rw [StateT.run_bind] at failed
  cases ran : first.run known with
  | error early =>
    rw [ran] at failed
    obtain rfl := Except.error.inj failed
    exact blames known early ran
  | ok outcome =>
    rw [ran] at failed
    exact rest outcome.1 outcome.2 fault failed

theorem mapM {entries : List α} {resolve : α → Resolution β}
    (each : ∀ entry ∈ entries, Blames (resolve entry) faults) :
    Blames (entries.mapM resolve) faults := by
  induction entries with
  | nil => exact .pure []
  | cons entry entries ih =>
    rw [List.mapM_cons]
    refine (each entry List.mem_cons_self).bind fun first => ?_
    refine (ih fun later inside => each later (List.mem_cons_of_mem _ inside)).bind fun rest => ?_
    exact .pure _

end Blames

section Resolving

variable {faults : Fault → Prop} {named : String → Resolution ValueType}

theorem blames_resolve {reference : TypeReference} (blames : Blames (named reference.core) faults) :
    Blames (reference.resolve named) faults := by
  induction reference with
  | named name => exact blames
  | pointer target zeroPage ih => exact (ih blames).bind fun _ => .pure _

theorem blames_resolveDeclared {decl : Source.TypeDecl}
    (base : Blames (named (decl.base?.getD Primitive.object.name)) faults)
    (fields : ∀ field ∈ decl.fields, field.isStatic = false →
      Blames (named (TypeReference.read field.type.toList).core) faults) :
    Blames (resolveDeclared named decl) faults := by
  refine base.bind fun _ => (Blames.mapM fun field member => ?_).bind fun _ => .pure _
  unfold resolveField
  cases static : field.isStatic with
  | true => exact .pure none
  | false => exact (blames_resolve (fields field member static)).bind fun _ => .pure _

variable {origins : List Origin}

theorem blames_resolveNeeded {user name : String} {depth : Nat} {inProgress : List TypeId}
    (needs : Needs (typeNamed? origins) user name)
    (each : ∀ origin id, origins[id]? = some origin → origin.name = name →
      Blames (resolveType origins depth inProgress (origin, id)) (Justified (typeNamed? origins))) :
    Blames (resolveNeeded origins depth inProgress name) (Justified (typeNamed? origins)) := by
  unfold resolveNeeded findOrigin
  cases sought : findOrigin? origins name with
  | none =>
    intro known fault failed
    obtain rfl := Except.error.inj failed
    exact .unresolved needs (findOrigin?_eq_none sought)
  | some entry =>
    obtain ⟨inside, same⟩ := findOrigin?_eq_some sought
    exact each entry.1 entry.2 inside same

/-- Every fault of a resolution is accounted for, while all types in progress wait for the one that
is resolved. -/
theorem blames_resolveType (distinct : (origins.map Origin.name).Nodup) {depth : Nat}
    {inProgress : List TypeId} {origin : Origin} {id : TypeId}
    (found : origins[id]? = some origin) (waiting : Waiting origins inProgress origin.name)
    (deep : origins.length < depth + inProgress.length) :
    Blames (resolveType origins depth inProgress (origin, id))
      (Justified (typeNamed? origins)) := by
  induction depth generalizing inProgress origin id with
  | zero =>
    have length := waiting.length_le
    omega
  | succ depth ih =>
    have declaredAs := typeNamed?_eq_some distinct found
    intro known fault failed
    rw [run_resolveType] at failed
    cases remembered : known.lookup id with
    | some value =>
      rw [remembered] at failed
      contradiction
    | none =>
      rw [remembered] at failed
      by_cases again : id ∈ inProgress
      · simp only [if_pos again] at failed
        obtain rfl := Except.error.inj failed
        obtain ⟨same, foundSame, cycle⟩ := waiting.depends id again
        obtain rfl := Option.some.inj (foundSame.symm.trans found)
        exact .recursive cycle
      · simp only [if_neg again] at failed
        have needed : ∀ name, Needs (typeNamed? origins) origin.name name →
            Blames (resolveNeeded origins depth (id :: inProgress) name)
              (Justified (typeNamed? origins)) := by
          intro name needs
          refine blames_resolveNeeded needs fun other position foundOther named => ?_
          refine ih foundOther ?_ (by simp only [List.length_cons]; omega)
          rw [named]
          exact waiting.cons found again needs
        have fresh : Blames (resolveFresh origins depth (id :: inProgress) origin)
            (Justified (typeNamed? origins)) := by
          cases origin with
          | builtin kind => exact .pure _
          | declared decl =>
            exact blames_resolveDeclared (needed _ (.base declaredAs))
              fun field member inside => needed _ (.field declaredAs member inside)
        refine fresh.bind (fun value => ?_) known fault failed
        intro known fault failed
        contradiction

end Resolving

section Scopes

variable {module : Source.Module}

/-- The names that the base and the instance fields of a declaration refer to. -/
def neededNames (decl : Source.TypeDecl) : List String :=
  decl.base?.getD Primitive.object.name ::
    (decl.fields.filter (!·.isStatic)).map fun field => (TypeReference.read field.type.toList).core

theorem mem_types_of_typeNamed? {name : String} {decl : Source.TypeDecl}
    (found : typeNamed? (originsOf module) name = some (.declared decl)) :
    decl ∈ module.types ∧ decl.name = name := by
  obtain ⟨member, spelled⟩ := mem_of_find?_key found
  refine ⟨?_, spelled⟩
  simpa [originsOf] using member

theorem mem_neededNames_of_needs {user name : String}
    (needs : Needs (typeNamed? (originsOf module)) user name) :
    ∃ decl ∈ module.types, decl.name = user ∧ name ∈ neededNames decl := by
  cases needs with
  | base found =>
    obtain ⟨member, spelled⟩ := mem_types_of_typeNamed? found
    exact ⟨_, member, spelled, List.mem_cons_self⟩
  | field found inside kept =>
    obtain ⟨member, spelled⟩ := mem_types_of_typeNamed? found
    refine ⟨_, member, spelled, List.mem_cons_of_mem _ (List.mem_map.mpr ⟨_, ?_, rfl⟩)⟩
    exact List.mem_filter.mpr ⟨inside, by simp [kept]⟩

theorem justified_of_ofModule (named : WellNamed (originsOf module)) {fault : Fault}
    (failed : Scope.ofModule module = .error fault) :
    Justified (typeNamed? (originsOf module)) fault := by
  have checked : checkNames [] (originsOf module) = .ok () :=
    checkNames_eq_ok.mpr ⟨named, by simp⟩
  have blames : Blames ((originsOf module).zipIdx.mapM
      (resolveType (originsOf module) ((originsOf module).length + 1) []))
      (Justified (typeNamed? (originsOf module))) := by
    refine Blames.mapM fun entry member => ?_
    exact blames_resolveType named.types (List.mem_zipIdx_iff_getElem?.mp member) ⟨.nil, by simp⟩
      (by simp)
  refine blames [] fault ?_
  simp only [Scope.ofModule, checked] at failed
  cases ran : ((originsOf module).zipIdx.mapM
      (resolveType (originsOf module) ((originsOf module).length + 1) [])).run [] with
  | error early =>
    rw [ran] at failed
    obtain rfl := Except.error.inj failed
    rfl
  | ok outcome =>
    rw [ran] at failed
    contradiction

theorem not_cycle_of_ofModule {scope : Scope} (made : Scope.ofModule module = .ok scope)
    (name : String) : ¬Relation.TransGen (Needs (typeNamed? (originsOf module))) name name := by
  obtain ⟨same, meaningful⟩ := Scope.ofModule_eq_ok_iff.mp made
  rw [← same]
  intro cycle
  have known : ∃ decl, typeNamed? scope.origins name = some (.declared decl) := by
    obtain ⟨next, needs, -⟩ := Relation.TransGen.head'_iff.mp cycle
    cases needs with
    | base found => exact ⟨_, found⟩
    | field found => exact ⟨_, found⟩
  obtain ⟨decl, found⟩ := known
  obtain ⟨member, spelled⟩ := mem_of_find?_key found
  obtain ⟨id, there⟩ := List.getElem?_of_mem member
  obtain ⟨value, -, means⟩ := meaningful.getElem? there
  rw [spelled] at means
  exact means.not_needs_self cycle

/-- Where all names are declared, a module is refused as recursive exactly if some type has to be
resolved before itself, and the fault names such a type. So a type that holds itself is refused. -/
theorem recursive_iff_needs_itself (named : WellNamed (originsOf module))
    (declared : ∀ decl ∈ module.types, ∀ name ∈ neededNames decl,
      (typeNamed? (originsOf module) name).isSome = true) :
    ((∃ name, Scope.ofModule module = .error (.recursiveLayout name)) ↔
      ∃ name, Relation.TransGen (Needs (typeNamed? (originsOf module))) name name) ∧
    (∀ name, Scope.ofModule module = .error (.recursiveLayout name) →
      Relation.TransGen (Needs (typeNamed? (originsOf module))) name name) ∧
    ((∃ name, Relation.TransGen (Holds (typeNamed? (originsOf module))) name name) →
      ∃ name, Scope.ofModule module = .error (.recursiveLayout name)) := by
  have blamed : ∀ name, Scope.ofModule module = .error (.recursiveLayout name) →
      Relation.TransGen (Needs (typeNamed? (originsOf module))) name name := by
    intro name failed
    cases justified_of_ofModule named failed with
    | recursive cycle => exact cycle
  have refused : (∃ name, Relation.TransGen (Needs (typeNamed? (originsOf module))) name name) →
      ∃ name, Scope.ofModule module = .error (.recursiveLayout name) := by
    rintro ⟨name, cycle⟩
    cases made : Scope.ofModule module with
    | ok scope => exact absurd cycle (not_cycle_of_ofModule made name)
    | error fault =>
      cases justified_of_ofModule named made with
      | @recursive blamed _ => exact ⟨blamed, rfl⟩
      | unresolved needs missing =>
        obtain ⟨decl, member, -, needed⟩ := mem_neededNames_of_needs needs
        have present := declared decl member _ needed
        simp [missing] at present
  refine ⟨⟨?_, refused⟩, blamed, ?_⟩
  · rintro ⟨name, failed⟩
    exact ⟨name, blamed name failed⟩
  · rintro ⟨name, cycle⟩
    exact refused ⟨name, cycle.lift id fun _ _ holds => holds.needs⟩

/-- A base that is declared later, and a pointer back that stays in the zero page. -/
def entangled : Source.Module :=
  { types := [{ name := "Pair", base? := some "Node" },
      { name := "Node", fields := [{ name := "Other", type := "\x7bzp\x7d Pair **" }] }] }

theorem recursive_iff_needs_itself_entangled :
    WellNamed (originsOf entangled) ∧
    (∀ decl ∈ entangled.types, ∀ name ∈ neededNames decl,
      (typeNamed? (originsOf entangled) name).isSome = true) ∧
    Relation.TransGen (Needs (typeNamed? (originsOf entangled))) "Pair" "Pair" ∧
    ∃ name, Scope.ofModule entangled = .error (.recursiveLayout name) := by
  have checked : checkNames [] (originsOf entangled) = .ok () := rfl
  have declared : ∀ decl ∈ entangled.types, ∀ name ∈ neededNames decl,
      (typeNamed? (originsOf entangled) name).isSome = true := by decide +kernel
  have named := (checkNames_eq_ok.mp checked).1
  have based : Needs (typeNamed? (originsOf entangled)) "Pair" "Node" := by
    have found : typeNamed? (originsOf entangled) "Pair" =
        some (.declared { name := "Pair", base? := some "Node" }) := rfl
    exact Needs.base found
  have core : (TypeReference.read "\x7bzp\x7d Pair **".toList).core = "Pair" := by decide +kernel
  have points : Needs (typeNamed? (originsOf entangled)) "Node" "Pair" := by
    have found : typeNamed? (originsOf entangled) "Node" = some (.declared
        { name := "Node", fields := [{ name := "Other", type := "\x7bzp\x7d Pair **" }] }) := rfl
    rw [← core]
    exact Needs.field found List.mem_cons_self rfl
  have cycle := (Relation.TransGen.single based).tail points
  exact ⟨named, declared, cycle, (recursive_iff_needs_itself named declared).1.mpr ⟨_, cycle⟩⟩

/-- The fault of an outcome, if there is one. -/
def fault? {α : Type} : Except Fault α → Option Fault
  | .error fault => some fault
  | .ok _ => none

theorem eq_error_of_fault? {α : Type} {outcome : Except Fault α} {fault : Fault}
    (failed : fault? outcome = some fault) : outcome = .error fault := by
  cases outcome with
  | error found => exact congrArg Except.error (Option.some.inj failed)
  | ok value => cases failed

/-- A list whose nodes point to the next one. -/
def linked : Source.Module :=
  { types := [{ name := "Game", subroutines := [{ name := "Main", isEntry := true
                                                  instructions := [⟨"ret", none⟩] }] },
      { name := "Node", fields := [{ name := "Next", type := "Node*" }] }] }

theorem pointer_refused_linked :
    WellNamed (originsOf linked) ∧
    (∀ decl ∈ linked.types, ∀ name ∈ neededNames decl,
      (typeNamed? (originsOf linked) name).isSome = true) ∧
    (∀ name, ¬Relation.TransGen (Holds (typeNamed? (originsOf linked))) name name) ∧
    Scope.ofModule linked = .error (.recursiveLayout "Node") ∧
    ofModule linked = .error (.recursiveLayout "Node") := by
  have checked : checkNames [] (originsOf linked) = .ok () := rfl
  have pointer : TypeReference.read "Node*".toList = .pointer (.named "Node") false := by
    decide +kernel
  refine ⟨(checkNames_eq_ok.mp checked).1, by decide +kernel, fun name cycle => ?_,
    eq_error_of_fault? (by decide +kernel), eq_error_of_fault? (by decide +kernel)⟩
  -- Both types hold only `object`, which holds nothing.
  have plain : ∀ {user part}, Holds (typeNamed? (originsOf linked)) user part →
      part = Primitive.object.name ∧ user ≠ Primitive.object.name := by
    intro user part holds
    cases holds with
    | base found =>
      have member := mem_types_of_typeNamed? found
      simp [linked] at member
      obtain ⟨rfl | rfl, rfl⟩ := member <;> exact ⟨rfl, by decide⟩
    | field found inside kept whole =>
      have member := mem_types_of_typeNamed? found
      simp [linked] at member
      obtain ⟨rfl | rfl, rfl⟩ := member
      · cases inside
      · obtain rfl := List.mem_singleton.mp inside
        rw [pointer] at whole
        cases whole
  obtain ⟨_, holds, -⟩ := Relation.TransGen.head'_iff.mp cycle
  obtain ⟨_, -, held⟩ := Relation.TransGen.tail'_iff.mp cycle
  exact (plain holds).2 (plain held).1

end Scopes

end Cartridge.Program
