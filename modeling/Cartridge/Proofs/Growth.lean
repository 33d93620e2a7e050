import Cartridge.Proofs.Interchange
import Cartridge.Proofs.Resolution

/-!
A module with one subroutine more.

Types and fields are resolved as before, and so is every subroutine, except that a call may now find
the new one, where it found one of a base before. A subroutine that does not call the new one is
therefore the same in both tables, up to what opcodes without a meaning are given.
-/

namespace Cartridge.Source

/-- A type with a subroutine more, which is counted if the others are. -/
def TypeDecl.declare (decl : TypeDecl) (added : Subroutine) : TypeDecl :=
  { decl with
    subroutines := decl.subroutines ++ [added]
    counts? := decl.counts?.map fun counts =>
      { counts with subroutines := counts.subroutines + 1 } }

end Cartridge.Source

namespace Cartridge.Program

open Emit (bind_eq_ok pure_eq_ok)

/-- An instruction, or one with the same opcode that was given the new subroutine. -/
inductive InstructionGrown (extra : SubroutineId) : Code.Instruction → Code.Instruction → Prop
  | same (instruction : Code.Instruction) : InstructionGrown extra instruction instruction
  | found {opcode : Code.Opcode} {id : SubroutineId} :
    InstructionGrown extra ⟨opcode, .method id⟩ ⟨opcode, .method extra⟩

/-- A subroutine as it is resolved once another one was added. -/
structure SubroutineGrown (extra : SubroutineId) (first second : Subroutine) : Prop where
  same : ∃ instructions, second = { first with instructions }
  instructions : List.Forall₂ (InstructionGrown extra) first.instructions second.instructions

/-- A type as it is resolved once a subroutine was added, which is the last of its own type. -/
structure TypeGrown (extra : SubroutineId) (first second : DeclaredType) : Prop where
  same : ∃ subroutines, second = { first with subroutines }
  subroutines : first.id ≠ extra.owner ∧
      List.Forall₂ (SubroutineGrown extra) first.subroutines second.subroutines ∨
    first.id = extra.owner ∧ first.subroutines.length = extra.index ∧
      ∃ kept last, second.subroutines = kept ++ [last] ∧ last.id = extra ∧
        List.Forall₂ (SubroutineGrown extra) first.subroutines kept

/-- A type of a module with its id, and what it is once a subroutine was added. -/
inductive OriginGrown (added : Source.Subroutine) (extra : SubroutineId) :
    Origin × TypeId → Origin × TypeId → Prop
  | same {entry : Origin × TypeId} (apart : entry.2 ≠ extra.owner) :
    OriginGrown added extra entry entry
  | grown {decl : Source.TypeDecl} (last : extra.index = decl.subroutines.length) :
    OriginGrown added extra (.declared decl, extra.owner)
      (.declared (decl.declare added), extra.owner)

section Origins

variable {added : Source.Subroutine} {extra : SubroutineId}

namespace OriginGrown

variable {first second : Origin × TypeId}

theorem id_eq (grown : OriginGrown added extra first second) : second.2 = first.2 := by
  cases grown <;> rfl

theorem name_eq (grown : OriginGrown added extra first second) : second.1.name = first.1.name := by
  cases grown <;> rfl

theorem baseName?_eq (grown : OriginGrown added extra first second) :
    second.1.baseName? = first.1.baseName? := by
  cases grown <;> rfl

theorem fieldNames_eq (grown : OriginGrown added extra first second) :
    second.1.fieldNames = first.1.fieldNames := by
  cases grown <;> rfl

end OriginGrown

/-- The types of two modules, of which the second has a subroutine more. -/
def Grown (added : Source.Subroutine) (extra : SubroutineId) (small large : List Origin) : Prop :=
  List.Forall₂ (OriginGrown added extra) small.zipIdx large.zipIdx

theorem grown_append (front back : List Origin) (decl : Source.TypeDecl)
    (added : Source.Subroutine) :
    Grown added ⟨front.length, decl.subroutines.length⟩
      (front ++ .declared decl :: back) (front ++ .declared (decl.declare added) :: back) := by
  have kept : ∀ entries : List (Origin × TypeId), (∀ entry ∈ entries, entry.2 ≠ front.length) →
      List.Forall₂ (OriginGrown added ⟨front.length, decl.subroutines.length⟩) entries entries :=
    fun entries apart => List.forall₂_same.mpr fun entry member => .same (apart entry member)
  rw [Grown, List.zipIdx_append, List.zipIdx_append, List.zipIdx_cons, List.zipIdx_cons,
    Nat.zero_add]
  refine List.rel_append (kept _ ?_) (.cons (.grown rfl) (kept _ ?_))
  · intro entry member
    have bound := List.snd_lt_of_mem_zipIdx member
    exact Nat.ne_of_lt (by simpa using bound)
  · intro entry member
    exact Nat.ne_of_gt (List.le_snd_of_mem_zipIdx member)

theorem grown_originsOf (before after : List Source.TypeDecl) (decl : Source.TypeDecl)
    (added : Source.Subroutine) :
    Grown added ⟨Primitive.all.length + before.length, decl.subroutines.length⟩
      (originsOf ⟨before ++ decl :: after⟩)
      (originsOf ⟨before ++ decl.declare added :: after⟩) := by
  have grown := grown_append (Primitive.all.map .builtin ++ before.map .declared)
    (after.map .declared) decl added
  simpa only [originsOf, List.map_append, List.map_cons, List.append_assoc, List.length_append,
    List.length_map] using grown

namespace Grown

variable {small large : List Origin}

theorem getElem? (grown : Grown added extra small large) (id : TypeId) :
    Option.Rel (fun first second => OriginGrown added extra (first, id) (second, id))
      small[id]? large[id]? := by
  have related := rel_getElem? grown id
  rw [List.getElem?_zipIdx, List.getElem?_zipIdx, Nat.zero_add] at related
  revert related
  generalize small[id]? = first, large[id]? = second
  cases first <;> cases second <;> intro related
  · exact .none
  · cases related
  · cases related
  · exact .some (Option.rel_some_some.mp related)

theorem length_eq (grown : Grown added extra small large) : large.length = small.length := by
  have lengths := List.Forall₂.length_eq grown
  rwa [List.length_zipIdx, List.length_zipIdx, eq_comm] at lengths

theorem findOrigin? (grown : Grown added extra small large) (name : String) :
    Option.Rel (OriginGrown added extra) (findOrigin? small name) (findOrigin? large name) :=
  rel_find? grown fun alike => by rw [alike.name_eq]

theorem bind_findOrigin (grown : Grown added extra small large) (name : String) {γ : Type}
    {next other : Origin × TypeId → Resolution γ}
    (same : ∀ {first second}, OriginGrown added extra first second → other second = next first) :
    (do other (← findOrigin large name) : Resolution γ) =
      (do next (← findOrigin small name)) := by
  have related := grown.findOrigin? name
  unfold findOrigin
  revert related
  generalize Program.findOrigin? small name = found, Program.findOrigin? large name = counterpart
  rintro (alike | -)
  · exact same alike
  · rfl

/-- A type is laid out as before. -/
theorem resolveType_eq (grown : Grown added extra small large) (depth : Nat)
    (inProgress : List TypeId) {first second : Origin × TypeId}
    (alike : OriginGrown added extra first second) :
    resolveType large depth inProgress second = resolveType small depth inProgress first := by
  induction depth generalizing inProgress first second with
  | zero => cases alike <;> rfl
  | succ depth ih =>
    have named : ∀ (inProgress : List TypeId) (name : String),
        (do resolveType large depth inProgress (← findOrigin large name) : Resolution ValueType) =
          (do resolveType small depth inProgress (← findOrigin small name)) := by
      intro inProgress name
      refine grown.bind_findOrigin name fun alike => ?_
      exact ih inProgress alike
    cases alike with
    | same apart => simp only [resolveType, named]
    | grown last =>
      simp only [resolveType, named]
      rfl

section Scopes

variable {values : List ValueType}

theorem named_eq (grown : Grown added extra small large) :
    Scope.named ⟨large, values⟩ = Scope.named ⟨small, values⟩ := by
  funext name
  have related := grown.findOrigin? name
  unfold Scope.named findOrigin
  revert related
  generalize Program.findOrigin? small name = found, Program.findOrigin? large name = other
  rintro (@⟨first, second, alike⟩ | -)
  · obtain ⟨origin, id⟩ := first
    obtain ⟨other, _⟩ := second
    obtain rfl : _ = id := alike.id_eq
    rfl
  · rfl

theorem valueType_eq (grown : Grown added extra small large) :
    Scope.valueType ⟨large, values⟩ = Scope.valueType ⟨small, values⟩ := by
  funext reference
  rw [Scope.valueType, Scope.valueType, grown.named_eq]

theorem base?_eq (grown : Grown added extra small large) (id : TypeId) :
    Scope.base? ⟨large, values⟩ id = Scope.base? ⟨small, values⟩ id := by
  have here := grown.getElem? id
  simp only [Scope.base?, Option.bind_eq_bind]
  revert here
  generalize small[id]? = found, large[id]? = other
  rintro (@⟨first, second, alike⟩ | -)
  · have names := alike.baseName?_eq
    simp only [Option.bind_some] at names ⊢
    rw [names]
    cases first.baseName? with
    | none => rfl
    | some name =>
      have related := grown.findOrigin? name
      simp only [Option.bind_some]
      revert related
      generalize Program.findOrigin? small name = found, Program.findOrigin? large name = other
      rintro (alike | -)
      · exact congrArg some alike.id_eq
      · rfl
  · rfl

/-- A member is found where it was before, unless some type has a new one to be found. -/
theorem findMember?_cases (grown : Grown added extra small large)
    {members : Origin → List String} {name : String} {hit : Prop}
    (here : ∀ {first second id}, OriginGrown added extra (first, id) (second, id) →
      (members second).findIdx? (· == name) = (members first).findIdx? (· == name) ∨
        hit ∧ id = extra.owner ∧ (members second).findIdx? (· == name) = some extra.index)
    (steps : Nat) (id : TypeId) :
    Scope.findMember? ⟨large, values⟩ members name steps id =
        Scope.findMember? ⟨small, values⟩ members name steps id ∨
      hit ∧ Scope.findMember? ⟨large, values⟩ members name steps id =
        some (extra.owner, extra.index) := by
  induction steps generalizing id with
  | zero => exact .inl rfl
  | succ steps ih =>
    have declared := grown.getElem? id
    have base : Scope.base? ⟨large, values⟩ id = Scope.base? ⟨small, values⟩ id := grown.base?_eq id
    simp only [Scope.findMember?, base]
    revert declared
    generalize small[id]? = found, large[id]? = other
    rintro (alike | -)
    · rcases here alike with same | ⟨isHit, rfl, added⟩
      · dsimp only
        rw [same]
        split
        next => exact .inl rfl
        next =>
          split
          next => exact ih _
          next => exact .inl rfl
      · refine .inr ⟨isHit, ?_⟩
        dsimp only
        rw [added]
    · exact .inl rfl

theorem member?_cases (grown : Grown added extra small large) {members : Origin → List String}
    {member : Source.MemberName} {hit : Prop}
    (here : ∀ {first second id}, OriginGrown added extra (first, id) (second, id) →
      (members second).findIdx? (· == member.name) = (members first).findIdx? (· == member.name) ∨
        hit ∧ id = extra.owner ∧ (members second).findIdx? (· == member.name) = some extra.index) :
    Scope.member? ⟨large, values⟩ members member = Scope.member? ⟨small, values⟩ members member ∨
      hit ∧ Scope.member? ⟨large, values⟩ members member = some (extra.owner, extra.index) := by
  have related := grown.findOrigin? member.type
  simp only [Scope.member?, Option.bind_eq_bind, grown.length_eq]
  revert related
  generalize Program.findOrigin? small member.type = found,
    Program.findOrigin? large member.type = other
  rintro (@⟨first, second, alike⟩ | -)
  · simp only [Option.bind_some, alike.id_eq]
    exact grown.findMember?_cases here _ _
  · exact .inl rfl

theorem field_eq (grown : Grown added extra small large) (member : Source.MemberName) :
    Scope.field ⟨large, values⟩ member = Scope.field ⟨small, values⟩ member := by
  have same : Scope.member? ⟨large, values⟩ Origin.fieldNames member =
        Scope.member? ⟨small, values⟩ Origin.fieldNames member ∨
      False ∧ Scope.member? ⟨large, values⟩ Origin.fieldNames member =
        some (extra.owner, extra.index) :=
    grown.member?_cases fun alike => .inl (by rw [alike.fieldNames_eq])
  rw [Scope.field, Scope.field, same.resolve_right And.left]

theorem subroutine_cases (grown : Grown added extra small large) (member : Source.MemberName) :
    Scope.subroutine ⟨large, values⟩ member = Scope.subroutine ⟨small, values⟩ member ∨
      Scope.subroutine ⟨large, values⟩ member = .ok extra := by
  have found : Scope.member? ⟨large, values⟩ Origin.subroutineNames member =
        Scope.member? ⟨small, values⟩ Origin.subroutineNames member ∨
      True ∧ Scope.member? ⟨large, values⟩ Origin.subroutineNames member =
        some (extra.owner, extra.index) := by
    apply grown.member?_cases
    intro first second id alike
    cases alike with
    | same apart => exact .inl rfl
    | @grown decl last =>
      have names : Origin.subroutineNames (.declared (decl.declare added)) =
          Origin.subroutineNames (.declared decl) ++ [added.name] := by
        simp [Origin.subroutineNames, Source.TypeDecl.declare]
      have length : extra.index = (Origin.subroutineNames (.declared decl)).length := by
        rw [last, Origin.subroutineNames, List.length_map]
      rw [names, List.findIdx?_append]
      cases earlier : (Origin.subroutineNames (.declared decl)).findIdx? (· == member.name) with
      | some index => exact .inl rfl
      | none =>
        by_cases named : added.name = member.name
        · refine .inr ⟨trivial, rfl, ?_⟩
          simp [List.findIdx?_cons, named, length]
        · exact .inl (by simp [List.findIdx?_cons, named])
  rcases found with same | ⟨-, hit⟩
  · exact .inl (by rw [Scope.subroutine, Scope.subroutine, same])
  · exact .inr (by rw [Scope.subroutine, hit])

end Scopes

section Members

variable {values : List ValueType}

theorem operand_cases (grown : Grown added extra small large) {fullName : String}
    {parameters locals : List ValueType} {length index : Nat} {written? : Option Source.Operand}
    {first second : Code.Operand}
    (resolved : Resolving.operand ⟨⟨small, values⟩, fullName, parameters, locals, length⟩ index
      written? = .ok first)
    (resolvedLarge : Resolving.operand
      ⟨⟨large, values⟩, fullName, parameters, locals, length⟩ index written? = .ok second) :
    second = first ∨ second = .method extra ∧ ∃ id, first = .method id := by
  cases written? with
  | none => exact .inl (Except.ok.inj (resolvedLarge.symm.trans resolved))
  | some written =>
    cases written with
    | type reference =>
      simp only [Resolving.operand, grown.valueType_eq] at resolvedLarge
      exact .inl (Except.ok.inj (resolvedLarge.symm.trans resolved))
    | field member =>
      simp only [Resolving.operand, grown.field_eq] at resolvedLarge
      exact .inl (Except.ok.inj (resolvedLarge.symm.trans resolved))
    | method member =>
      obtain ⟨id, named, made⟩ := bind_eq_ok.mp resolved
      obtain rfl := pure_eq_ok.mp made
      obtain ⟨target, namedLarge, made⟩ := bind_eq_ok.mp resolvedLarge
      obtain rfl := pure_eq_ok.mp made
      rcases grown.subroutine_cases member with same | hit
      · rw [← same, namedLarge] at named
        exact .inl (congrArg _ (Except.ok.inj named))
      · rw [namedLarge] at hit
        exact .inr ⟨congrArg _ (Except.ok.inj hit), id, rfl⟩
    | _ => exact .inl (Except.ok.inj (resolvedLarge.symm.trans resolved))

theorem instruction_cases (grown : Grown added extra small large) {fullName : String}
    {parameters locals : List ValueType} {length index : Nat} {written : Source.Instruction}
    {first second : Code.Instruction}
    (resolved : Resolving.instruction ⟨⟨small, values⟩, fullName, parameters, locals, length⟩ index
      written = .ok first)
    (resolvedLarge : Resolving.instruction
      ⟨⟨large, values⟩, fullName, parameters, locals, length⟩ index written = .ok second) :
    InstructionGrown extra first second := by
  obtain ⟨operand, found, next⟩ := bind_eq_ok.mp resolved
  obtain ⟨-, -, more⟩ := bind_eq_ok.mp next
  obtain ⟨-, -, made⟩ := bind_eq_ok.mp more
  obtain rfl := pure_eq_ok.mp made
  obtain ⟨other, foundLarge, next⟩ := bind_eq_ok.mp resolvedLarge
  obtain ⟨-, -, more⟩ := bind_eq_ok.mp next
  obtain ⟨-, -, made⟩ := bind_eq_ok.mp more
  obtain rfl := pure_eq_ok.mp made
  rcases grown.operand_cases found foundLarge with rfl | ⟨rfl, id, rfl⟩
  · exact .same _
  · exact .found

theorem subroutineGrown (grown : Grown added extra small large) {type : String} {id : SubroutineId}
    {source : Source.Subroutine} {first second : Subroutine}
    (resolved : resolveSubroutine ⟨small, values⟩ type id source = .ok first)
    (resolvedLarge : resolveSubroutine ⟨large, values⟩ type id source = .ok second) :
    SubroutineGrown extra first second := by
  obtain ⟨parameters, locals, returns, instructions, intrinsic, made⟩ :=
    made_of_resolveSubroutine resolved
  obtain ⟨parametersLarge, localsLarge, returnsLarge, instructionsLarge, intrinsicLarge,
    madeLarge⟩ := made_of_resolveSubroutine resolvedLarge
  rw [grown.valueType_eq, parameters] at parametersLarge
  rw [grown.valueType_eq, locals] at localsLarge
  rw [grown.valueType_eq, returns] at returnsLarge
  have sameParameters := Except.ok.inj parametersLarge
  have sameLocals := Except.ok.inj localsLarge
  have sameReturns := Except.ok.inj returnsLarge
  rw [← sameParameters, ← sameReturns, intrinsic] at intrinsicLarge
  have sameIntrinsic := Except.ok.inj intrinsicLarge
  rw [← sameParameters, ← sameLocals] at instructionsLarge
  refine ⟨⟨second.instructions, ?_⟩, ?_⟩
  · rw [madeLarge, ← sameParameters, ← sameLocals, ← sameReturns, ← sameIntrinsic, made]
  · refine forall₂_of_both (forall₂_of_mapM instructions) (forall₂_of_mapM instructionsLarge) ?_
    intro entry written other found foundLarge
    exact grown.instruction_cases found foundLarge

theorem resolveFields_eq (grown : Grown added extra small large) (owner : TypeId)
    (sources : List Source.Field) (index offset : Nat) :
    resolveFields ⟨large, values⟩ owner index offset sources =
      resolveFields ⟨small, values⟩ owner index offset sources := by
  induction sources generalizing index offset with
  | nil => rfl
  | cons source sources ih => simp only [resolveFields, grown.valueType_eq, ih]

theorem subroutinesGrown (grown : Grown added extra small large) {type : String} {id : TypeId}
    {sources : List Source.Subroutine} {first second : List Subroutine}
    (resolved : (sources.zipIdx.mapM fun (source, index) =>
      resolveSubroutine ⟨small, values⟩ type { owner := id, index } source) = .ok first)
    (resolvedLarge : (sources.zipIdx.mapM fun (source, index) =>
      resolveSubroutine ⟨large, values⟩ type { owner := id, index } source) = .ok second) :
    List.Forall₂ (SubroutineGrown extra) first second := by
  refine forall₂_of_both (forall₂_of_mapM resolved) (forall₂_of_mapM resolvedLarge) ?_
  intro entry subroutine other made madeLarge
  exact grown.subroutineGrown made madeLarge

theorem typeGrown (grown : Grown added extra small large) {origin other : Origin} {id : TypeId}
    (alike : OriginGrown added extra (origin, id) (other, id)) {value : ValueType}
    {first second : DeclaredType}
    (resolved : resolveOrigin ⟨small, values⟩ id value origin = .ok first)
    (resolvedLarge : resolveOrigin ⟨large, values⟩ id value other = .ok second) :
    TypeGrown extra first second := by
  cases alike with
  | same apart =>
    cases origin with
    | builtin kind =>
      obtain rfl := Except.ok.inj resolved
      obtain rfl := Except.ok.inj resolvedLarge
      exact ⟨⟨[], by rw [grown.base?_eq]⟩, .inl ⟨apart, .nil⟩⟩
    | declared decl =>
      obtain ⟨-, -, next⟩ := bind_eq_ok.mp resolved
      obtain ⟨fields, declared, more⟩ := bind_eq_ok.mp next
      obtain ⟨subroutines, mapped, made⟩ := bind_eq_ok.mp more
      obtain rfl := pure_eq_ok.mp made
      obtain ⟨-, -, next⟩ := bind_eq_ok.mp resolvedLarge
      obtain ⟨others, declaredLarge, more⟩ := bind_eq_ok.mp next
      obtain ⟨counterparts, mappedLarge, made⟩ := bind_eq_ok.mp more
      obtain rfl := pure_eq_ok.mp made
      rw [grown.resolveFields_eq, declared] at declaredLarge
      obtain rfl := Except.ok.inj declaredLarge
      refine ⟨⟨counterparts, by rw [grown.base?_eq]⟩, .inl ⟨apart, ?_⟩⟩
      exact grown.subroutinesGrown mapped mappedLarge
  | @grown decl last =>
    obtain ⟨-, -, next⟩ := bind_eq_ok.mp resolved
    obtain ⟨fields, declared, more⟩ := bind_eq_ok.mp next
    obtain ⟨subroutines, mapped, made⟩ := bind_eq_ok.mp more
    obtain rfl := pure_eq_ok.mp made
    obtain ⟨-, -, next⟩ := bind_eq_ok.mp resolvedLarge
    obtain ⟨others, declaredLarge, more⟩ := bind_eq_ok.mp next
    obtain ⟨counterparts, mappedLarge, made⟩ := bind_eq_ok.mp more
    obtain rfl := pure_eq_ok.mp made
    have sameFields : fields = others := by
      rw [grown.resolveFields_eq] at declaredLarge
      exact Except.ok.inj (declared.symm.trans declaredLarge)
    subst sameFields
    simp only [Source.TypeDecl.declare, List.zipIdx_append, List.mapM_append] at mappedLarge
    obtain ⟨kept, mappedKept, next⟩ := bind_eq_ok.mp mappedLarge
    obtain ⟨rest, mappedRest, made⟩ := bind_eq_ok.mp next
    obtain rfl := pure_eq_ok.mp made
    have related := grown.subroutinesGrown mapped mappedKept
    have length : subroutines.length = extra.index := by
      rw [last, ← (forall₂_of_mapM mapped).length_eq, List.length_zipIdx]
    obtain ⟨final, rfl⟩ : ∃ final, rest = [final] := by
      rw [← List.length_eq_one_iff, ← (forall₂_of_mapM mappedRest).length_eq]
      rfl
    obtain ⟨resolvedLast, -⟩ := List.forall₂_cons.mp (forall₂_of_mapM mappedRest)
    have named : final.id = extra := by
      rw [(made_of_resolveSubroutine resolvedLast).2.2.2.2.2, Nat.zero_add, ← last]
    refine ⟨⟨kept ++ [final], ?_⟩, .inr ⟨rfl, length, kept, final, rfl, named, related⟩⟩
    rw [grown.base?_eq]
    rfl

end Members

end Grown

end Origins

/-- The tables of two modules, of which the second has a subroutine more. -/
def TableGrown (extra : SubroutineId) (small large : TypeTable) : Prop :=
  List.Forall₂ (TypeGrown extra) small.types large.types

theorem tableGrown_of_buildTable {added : Source.Subroutine} {extra : SubroutineId}
    {small large : List Origin} {values : List ValueType} {first second : TypeTable}
    (grown : Grown added extra small large) (built : buildTable ⟨small, values⟩ = .ok first)
    (builtLarge : buildTable ⟨large, values⟩ = .ok second) : TableGrown extra first second := by
  obtain ⟨types, same, related⟩ := types_of_foldlM built
  obtain ⟨others, sameLarge, relatedLarge⟩ := types_of_foldlM builtLarge
  have lengths : first.types.length = second.types.length := by
    have count := related.length_eq
    have countLarge := relatedLarge.length_eq
    rw [List.length_zipIdx, List.length_zip] at count countLarge
    rw [same, sameLarge, List.nil_append, List.nil_append, ← count, ← countLarge, grown.length_eq]
  rw [TableGrown, List.forall₂_iff_get]
  refine ⟨lengths, fun id bound boundLarge => ?_⟩
  obtain ⟨origin, value, declared, valued, resolved⟩ :=
    resolved_at built (List.getElem?_eq_getElem bound)
  obtain ⟨other, otherValue, declaredLarge, valuedLarge, resolvedLarge⟩ :=
    resolved_at builtLarge (List.getElem?_eq_getElem boundLarge)
  obtain rfl := Option.some.inj (valued.symm.trans valuedLarge)
  have alike := grown.getElem? id
  have here : small[id]? = some origin := declared
  have there : large[id]? = some other := declaredLarge
  rw [here, there, Option.rel_some_some] at alike
  exact grown.typeGrown alike resolved resolvedLarge

end Cartridge.Program
