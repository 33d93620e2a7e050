import Cartridge.Proofs.RecordSizes

/-!
Where the fields of a type lie.

Offsets are computed twice. A layout places the own fields of a type where those of its base end,
and the declaration of the type counts its instance fields from where its own bytes start, which it
gets by taking them off the size of the whole. The two agree because layouts have no gaps, and this
is handed on from a base to the types that extend it.
-/

namespace Cartridge

section Placing

variable {start : Nat} {fields : List (String × ValueType)}

theorem placeFields_append (start : Nat) (first second : List (String × ValueType)) :
    placeFields start (first ++ second) =
      placeFields start first ++ placeFields (start + totalSize (first.map (·.2))) second := by
  induction first generalizing start with
  | nil => rfl
  | cons field first ih =>
    simp only [List.cons_append, placeFields, List.map_cons, totalSize, ih, Nat.add_assoc]

theorem types_placeFields (start : Nat) (fields : List (String × ValueType)) :
    (placeFields start fields).map (·.type) = fields.map (·.2) := by
  induction fields generalizing start with
  | nil => rfl
  | cons field fields ih => simp only [placeFields, List.map_cons, ih]

theorem offset_of_placeFields {position : Nat} {field : FieldLayout}
    (found : (placeFields start fields)[position]? = some field) :
    field.offset = start + totalSize ((fields.take position).map (·.2)) := by
  induction fields generalizing start position with
  | nil => contradiction
  | cons first fields ih =>
    cases position with
    | zero =>
      obtain rfl := Option.some.inj found
      rfl
    | succ position =>
      rw [ih found, List.take_succ_cons, List.map_cons, totalSize, Nat.add_assoc]

theorem start_le_of_mem_placeFields {field : FieldLayout}
    (member : field ∈ placeFields start fields) : start ≤ field.offset := by
  obtain ⟨position, found⟩ := List.getElem?_of_mem member
  rw [offset_of_placeFields found]
  exact Nat.le_add_right _ _

/-- Each field ends before the next ones start. -/
theorem pairwise_placeFields (start : Nat) (fields : List (String × ValueType)) :
    (placeFields start fields).Pairwise fun first second => first.stop ≤ second.offset := by
  induction fields generalizing start with
  | nil => exact .nil
  | cons field fields ih =>
    refine .cons ?_ (ih _)
    intro later member
    rw [FieldLayout.stop]
    exact start_le_of_mem_placeFields member

end Placing

namespace Layout

/-- Fields that were laid end to end from the first byte on. -/
def Gapless (layout : Layout) : Prop :=
  ∃ fields, layout.fields = placeFields 0 fields

/-- A layout that is filled by its fields, each behind those before it. -/
structure Packed (layout : Layout) : Prop where
  offset : ∀ position field, layout.fields[position]? = some field →
    field.offset = totalSize ((layout.fields.take position).map (·.type))
  size : layout.size = totalSize (layout.fields.map (·.type))
  apart : layout.fields.Pairwise fun first second => first.stop ≤ second.offset

variable {layout : Layout}

theorem Gapless.packed (gapless : layout.Gapless) : layout.Packed := by
  obtain ⟨fields, placed⟩ := gapless
  refine ⟨?_, ?_, ?_⟩
  · intro position field found
    rw [placed] at found
    rw [offset_of_placeFields found, placed, Nat.zero_add, List.map_take, List.map_take,
      types_placeFields]
  · have furthest := max_furthest_placeFields 0 fields
    rwa [Nat.zero_max, Nat.zero_add, ← types_placeFields 0, ← placed, ← size_eq_furthest]
      at furthest
  · rw [placed]
    exact pairwise_placeFields 0 fields

theorem gapless_extend {name : String} {base? : Option Layout} {fields : List (String × ValueType)}
    (inherits : ∀ base, base? = some base → base.Gapless) :
    (extend name base? fields).Gapless := by
  cases base? with
  | none => exact ⟨fields, rfl⟩
  | some base =>
    obtain ⟨inherited, placed⟩ := inherits base rfl
    have size : base.size = totalSize (inherited.map (·.2)) := by
      rw [(inherits base rfl).packed.size, placed, types_placeFields]
    refine ⟨inherited ++ fields, ?_⟩
    rw [placeFields_append, ← placed, Nat.zero_add, ← size]
    rfl

end Layout

namespace Program

theorem gapless_of_denotes {find : String → Option Origin} {reference : TypeReference}
    {value : ValueType} (means : Denotes find reference value) :
    ∀ layout, value.layout? = some layout → layout.Gapless := by
  induction means with
  | builtin found => intro layout isRecord; cases isRecord
  | pointer points ih => intro layout isRecord; cases isRecord
  | declared found based typed inherits _ =>
    intro layout isRecord
    obtain rfl := Option.some.inj isRecord
    exact Layout.gapless_extend inherits

/-- What a type inherits from a base is the layout of that, if it has one. -/
theorem fields_of_denotes {find : String → Option Origin} {reference : TypeReference}
    {value : ValueType} (means : Denotes find reference value) :
    (value.layout?.map Layout.fields).getD [] = value.fields := by
  cases means with
  | builtin found => rfl
  | declared found based typed => rfl
  | pointer points => rfl

/-- The own bytes of a type start where its base ends. -/
theorem ownStart_extend (name : String) (base? : Option Layout)
    (fields : List (String × ValueType)) :
    ownStart (.record (Layout.extend name base? fields)) = (base?.map Layout.size).getD 0 := by
  rw [ownStart, Layout.size_extend]
  exact Nat.add_sub_cancel _ _

/-- A declared field is found in a layout. -/
structure Field.IsAt (field : Field) (entry : FieldLayout) : Prop where
  name : field.name = entry.name
  type : field.type = entry.type
  offset : field.offset? = some entry.offset

/-- Counting on from field to field gives instance fields the offsets that they are placed at. -/
theorem isAt_of_resolveFields {scope : Scope} {owner : TypeId} {index start : Nat}
    {sources : List Source.Field} {fields : List Field}
    (resolved : resolveFields scope owner index start sources = .ok fields) :
    List.Forall₂ Field.IsAt (fields.filter (!·.isStatic))
      (placeFields start
        ((fields.filter (!·.isStatic)).map fun field => (field.name, field.type))) := by
  induction sources generalizing index start fields with
  | nil =>
    obtain rfl := Except.ok.inj resolved
    exact .nil
  | cons source sources ih =>
    obtain ⟨type, -, more⟩ := Emit.bind_eq_ok.mp resolved
    simp only at more
    split at more
    next =>
      obtain ⟨rest, resolvedRest, made⟩ := Emit.bind_eq_ok.mp more
      obtain rfl := Emit.pure_eq_ok.mp made
      have placed := ih resolvedRest
      exact placed
    next =>
      obtain ⟨rest, resolvedRest, made⟩ := Emit.bind_eq_ok.mp more
      obtain rfl := Emit.pure_eq_ok.mp made
      exact .cons ⟨rfl, rfl, rfl⟩ (ih resolvedRest)

/-- How the fields of a declared type lie in a layout, behind those that it inherits. -/
structure LaidOut (inherited : List FieldLayout) (fields : List Field) (layout : Layout) :
    Prop where
  starts : inherited <+: layout.fields
  length : layout.fields.length = inherited.length + (fields.filter (!·.isStatic)).length
  declared : ∀ k field, (fields.filter (!·.isStatic))[k]? = some field →
    ∃ entry, layout.fields[inherited.length + k]? = some entry ∧ field.IsAt entry

theorem laidOut_of_forall₂ {inherited own : List FieldLayout} {fields : List Field}
    {layout : Layout} (split : layout.fields = inherited ++ own)
    (placed : List.Forall₂ Field.IsAt (fields.filter (!·.isStatic)) own) :
    LaidOut inherited fields layout := by
  refine ⟨⟨own, split.symm⟩, by rw [split, List.length_append, placed.length_eq], ?_⟩
  intro k field found
  have related := rel_getElem? placed k
  rw [found] at related
  rw [split, List.getElem?_append_right (Nat.le_add_right _ _), Nat.add_sub_cancel_left]
  generalize own[k]? = entry? at related
  cases related with
  | some isAt => exact ⟨_, rfl, isAt⟩

section Offsets

variable {module : Source.Module} {program : Program}

/-- Every type of a program is built in, or its layout has no gaps, starts with that of its base
and goes on with the instance fields of its declaration at the offsets that are given to them. -/
theorem fields_laid_out (made : ofModule module = .ok program) {type : DeclaredType}
    (listed : type ∈ program.types.types) :
    (∃ kind, type.value = .primitive kind ∧ type.fields = []) ∨
    ∃ decl ∈ module.types, ∃ layout base, type.name = decl.name ∧ type.value = .record layout ∧
      type.base? = some base.id ∧ program.types.get? base.id = some base ∧
      base.name = decl.base?.getD "object" ∧ layout.Packed ∧
      LaidOut base.value.fields type.fields layout ∧
      List.Forall₂ (fun source field =>
        field.name = source.name ∧ (field.offset? = none ↔ source.isStatic = true))
        decl.fields type.fields := by
  obtain ⟨scope, names, built, -⟩ := ofModule_eq_ok_iff.mp made
  obtain ⟨same, meaningful⟩ := Scope.ofModule_eq_ok_iff.mp names
  obtain ⟨id, found⟩ := List.getElem?_of_mem listed
  obtain ⟨origin, declared, stands⟩ : ∃ origin, scope.origins[id]? = some origin ∧
      StandsFor scope (origin, id) type := by
    have related := rel_get? meaningful built id
    rw [TypeTable.get?, found] at related
    generalize scope.origins[id]? = origin? at related
    cases related with
    | some stands => exact ⟨_, rfl, stands⟩
  cases origin with
  | builtin kind =>
    obtain ⟨-, value, means, resolved⟩ := stands
    obtain rfl := Except.ok.inj resolved
    have builtIn := typeNamed?_eq_some meaningful.named.types declared
    cases means with
    | @builtin _ kind again => exact .inl ⟨kind, rfl, rfl⟩
    | declared again => cases builtIn.symm.trans again
  | declared decl =>
    have member : decl ∈ module.types := by
      have listedOrigin := List.mem_of_getElem? declared
      rw [same] at listedOrigin
      simpa [originsOf] using listedOrigin
    obtain ⟨base, lookedBase, baseName, baseId, based, valued⟩ :=
      value_of_standsFor meaningful built stands
    obtain ⟨-, value, -, resolved⟩ := stands
    obtain ⟨named, rfl, -⟩ := name_of_resolveOrigin resolved
    obtain ⟨resolvedFields, -⟩ := resolveDecl_eq_ok resolved
    have declares := declares_of_resolveFields resolvedFields
    rw [valued, ownStart_extend] at resolvedFields
    have baseFound : program.types.get? base.id = some base := by
      obtain ⟨position, present⟩ := TypeTable.get?_of_lookup? lookedBase
      rw [(wellFormed_of_buildTable built meaningful.length_eq).typeId position base present]
      exact present
    refine .inr ⟨decl, member, _, base, named, valued, baseId, baseFound, baseName,
      (Layout.gapless_extend (gapless_of_denotes based)).packed,
      laidOut_of_forall₂ ?_ (isAt_of_resolveFields resolvedFields), ?_⟩
    · rw [← fields_of_denotes based]
      rfl
    · refine declares.imp fun source field declared => ⟨declared.name, ?_⟩
      rw [← declared.static, Field.isStatic, Option.isNone_iff_eq_none]

/-- Inherited, static and nested fields of a type that is declared before its base. -/
theorem fields_laid_out_sprite :
    ∃ program type layout, ∃ base : DeclaredType,
      ofModule sprites = .ok program ∧ type ∈ program.types.types ∧ type.name = "Sprite" ∧
      type.value = .record layout ∧ layout.Packed ∧
      LaidOut base.value.fields type.fields layout ∧
      base.value.fields.map (·.name) = ["X", "Y"] ∧
      layout.fields.map (·.offset) = [0, 1, 2, 3, 5] ∧
      type.fields.map (·.offset?) = [some 2, none, some 3, some 5] := by
  obtain ⟨program, made, checked⟩ := exists_of_any
    (show (ofModule sprites).toOption.any (fun program =>
      (program.types.lookup? "Sprite").any fun type =>
        type.name = "Sprite" ∧ type.value.fields.map (·.offset) = [0, 1, 2, 3, 5] ∧
        type.fields.map (·.offset?) = [some 2, none, some 3, some 5] ∧
        type.base?.any fun base => (program.types.get? base).any fun base =>
          base.value.fields.map (·.name) = ["X", "Y"]) = true by decide +kernel)
  obtain ⟨type, found, checkedType⟩ := (Option.any_eq_true _ _).mp checked
  obtain ⟨named, inLayout, inType, checkedBase⟩ := of_decide_eq_true checkedType
  obtain ⟨id, placed⟩ := TypeTable.get?_of_lookup? found
  have listed := List.mem_of_getElem? placed
  rcases fields_laid_out made listed with ⟨kind, primitive, -⟩ |
    ⟨decl, -, layout, base, -, valued, baseId, baseFound, -, packed, laidOut, -⟩
  · rw [primitive] at inLayout
    contradiction
  · rw [valued] at inLayout
    rw [baseId, Option.any_some, baseFound, Option.any_some] at checkedBase
    exact ⟨program, type, layout, base, made, listed, named, valued, packed, laidOut,
      of_decide_eq_true checkedBase, inLayout, inType⟩

end Offsets

end Program

end Cartridge
