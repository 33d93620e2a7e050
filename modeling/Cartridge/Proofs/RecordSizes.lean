import Cartridge.Proofs.DeclaredTypes

/-!
The sizes of declared types.

The fields of a type lie end to end behind those of its base, so it takes as many bytes as the base
and the fields together. This holds of every base but `byte` and `bool`. These are no records, so a
type that extends one of them starts at its own fields, and their byte is not part of it.
-/

namespace Cartridge

namespace Layout

theorem size_eq_furthest (layout : Layout) : layout.size = furthest layout.fields := by
  cases layout
  rw [Layout.size]

theorem furthest_append (first second : List FieldLayout) :
    furthest (first ++ second) = max (furthest first) (furthest second) := by
  induction first with
  | nil => simp [furthest]
  | cons field first ih => simp only [List.cons_append, furthest, ih, Nat.max_assoc]

theorem max_furthest_placeFields (start : Nat) (fields : List (String × ValueType)) :
    max start (furthest (placeFields start fields)) = start + totalSize (fields.map (·.2)) := by
  induction fields generalizing start with
  | nil => simp [placeFields, furthest, totalSize]
  | cons field fields ih =>
    have rest := ih (start + field.2.size)
    simp only [placeFields, furthest, FieldLayout.stop, List.map_cons, totalSize]
    omega

/-- A record takes the bytes of its base and of its own fields. -/
theorem size_extend (name : String) (base? : Option Layout) (fields : List (String × ValueType)) :
    (extend name base? fields).size =
      (base?.map Layout.size).getD 0 + totalSize (fields.map (·.2)) := by
  rw [size_eq_furthest, extend, furthest_append, ← max_furthest_placeFields]
  cases base? with
  | none => rfl
  | some base =>
    simp only [Option.map_some, Option.getD_some]
    rw [size_eq_furthest base]

end Layout

namespace Program

/-- The fields that lie in an instance, with what each of their types means. -/
theorem members_of_declares {scope : Scope} (meaningful : scope.Meaningful)
    {sources : List Source.Field} {fields : List Field}
    (declares : List.Forall₂ (Declares scope) sources fields)
    {types : Source.Field → ValueType}
    (typed : ∀ source ∈ sources, source.isStatic = false →
      Denotes (typeNamed? scope.origins) (.read source.type.toList) (types source)) :
    (fields.filter (!·.isStatic)).map (fun field => (field.name, field.type)) =
      (sources.filter (!·.isStatic)).map fun source => (source.name, types source) := by
  induction declares with
  | nil => rfl
  | @cons source field sources fields first _ ih =>
    have rest := ih fun later member => typed later (List.mem_cons_of_mem _ member)
    cases static : source.isStatic with
    | true => simp [first.static, static, rest]
    | false =>
      have same := (meaningful.valueType_eq_ok.mp first.type).unique
        (typed source List.mem_cons_self static)
      simp [first.static, static, rest, same, first.name]

/-- Only the two primitives that take a byte are bases with a size but without a layout. -/
theorem size_of_layout? {module : Source.Module} {name : String} {value : ValueType}
    (means : Denotes (typeNamed? (originsOf module)) (.named name) value) :
    (value.layout?.map Layout.size).getD 0 = if name ∈ ["byte", "bool"] then 0 else value.size := by
  cases means with
  | @builtin _ kind found =>
    have named : kind.name = name := by simpa [Origin.name] using List.find?_some found
    subst named
    cases kind <;> rfl
  | @declared _ decl base types found based typed =>
    have apart : name ∉ ["byte", "bool"] := by
      intro sized
      simp only [List.mem_cons, List.not_mem_nil, or_false] at sized
      rcases sized with rfl | rfl <;>
        simp [typeNamed?, originsOf, Primitive.all, Origin.name, Primitive.name] at found
    rw [if_neg apart]
    simp [ValueType.layout?, ValueType.size]

/-- A declared type extends its base by the instance fields that it lists. -/
theorem value_of_standsFor {scope : Scope} {table : TypeTable} (meaningful : scope.Meaningful)
    (built : buildTable scope = .ok table) {decl : Source.TypeDecl} {id : TypeId}
    {type : DeclaredType} (stands : StandsFor scope (.declared decl, id) type) :
    ∃ base, table.lookup? (decl.base?.getD "object") = some base ∧
      base.name = decl.base?.getD "object" ∧ type.base? = some base.id ∧
      Denotes (typeNamed? scope.origins) (.named (decl.base?.getD "object")) base.value ∧
      type.value = .record (Layout.extend decl.name base.value.layout?
        ((type.fields.filter (!·.isStatic)).map fun field => (field.name, field.type))) := by
  obtain ⟨found, value, means, resolved⟩ := stands
  obtain ⟨-, valued, base?⟩ := name_of_resolveOrigin resolved
  obtain ⟨resolvedFields, -⟩ := resolveDecl_eq_ok resolved
  have declaredAs := typeNamed?_eq_some meaningful.named.types found
  cases means with
  | builtin again => cases declaredAs.symm.trans again
  | @declared _ _ baseValue types again based typed =>
    obtain rfl := declared_unique declaredAs again
    obtain ⟨base, lookedBase, baseId, baseName, rfl⟩ :=
      base?_of_denotes meaningful built found rfl based
    refine ⟨base, lookedBase, baseName, base?.trans baseId, based, ?_⟩
    rw [valued, members_of_declares meaningful (declares_of_resolveFields resolvedFields) typed]

section Sizes

variable {module : Source.Module} {program : Program}

theorem size_of_declaredType (made : ofModule module = .ok program) {decl : Source.TypeDecl}
    (declared : decl ∈ module.types) :
    ∃ type base, program.types.lookup? decl.name = some type ∧
      program.types.lookup? (decl.base?.getD "object") = some base ∧ type.base? = some base.id ∧
      type.ownSize = totalSize ((type.fields.filter (!·.isStatic)).map (·.type)) ∧
      type.size = (if base.name ∈ ["byte", "bool"] then 0 else base.size) + type.ownSize := by
  obtain ⟨scope, named, built, -⟩ := ofModule_eq_ok_iff.mp made
  obtain ⟨same, meaningful⟩ := Scope.ofModule_eq_ok_iff.mp named
  have listed : Origin.declared decl ∈ scope.origins := by
    rw [same]
    exact List.mem_append_right _ (List.mem_map.mpr ⟨decl, declared, rfl⟩)
  obtain ⟨id, found⟩ := List.getElem?_of_mem listed
  obtain ⟨type, looked, stands⟩ := lookup?_of_findOrigin? meaningful built
    (findOrigin?_of_getElem? meaningful.named.types found)
  obtain ⟨base, lookedBase, baseName, baseId, based, valued⟩ :=
    value_of_standsFor meaningful built stands
  have types : ((type.fields.filter (!·.isStatic)).map fun field => (field.name, field.type)).map
      (·.2) = (type.fields.filter (!·.isStatic)).map (·.type) := List.map_map
  have own : type.ownSize = totalSize ((type.fields.filter (!·.isStatic)).map (·.type)) := by
    rw [DeclaredType.ownSize, valued, ← types]
    rfl
  refine ⟨type, base, looked, lookedBase, baseId, own, ?_⟩
  rw [same] at based
  rw [own, DeclaredType.size, DeclaredType.size, valued, ValueType.size, Layout.size_extend, types,
    size_of_layout? based, baseName]

def sprite : Source.TypeDecl :=
  { name := "Sprite", base? := some "Point"
    fields := [⟨"Colour", "byte", false⟩, ⟨"Count", "byte", true⟩, ⟨"Speed", "Point", false⟩,
      ⟨"Path", "Point*", false⟩] }

/-- Records that extend, hold and point to one another, and a type that extends a byte. -/
def sprites : Source.Module :=
  { types := [{ name := "Game"
                subroutines :=
                  [{ name := "Main", isEntry := true, instructions := [⟨"ret", none⟩] }] },
              sprite,
              { name := "Point", fields := [⟨"X", "byte", false⟩, ⟨"Y", "byte", false⟩] },
              { name := "Flag", base? := some "byte", fields := [⟨"Extra", "byte", false⟩] }] }

theorem size_of_declaredType_sprite :
    ∃ program type base, ofModule sprites = .ok program ∧
      program.types.lookup? "Sprite" = some type ∧ program.types.lookup? "Point" = some base ∧
      type.ownSize = totalSize ((type.fields.filter (!·.isStatic)).map (·.type)) ∧
      type.size = base.size + type.ownSize ∧ type.size = 7 := by
  obtain ⟨program, made, checked⟩ := exists_of_any
    (show (ofModule sprites).toOption.any (fun program =>
      (program.types.lookup? "Point").all (·.name = "Point") ∧
      (program.types.lookup? "Sprite").all (·.size = 7)) = true by decide +kernel)
  obtain ⟨point, whole⟩ := of_decide_eq_true checked
  obtain ⟨type, base, found, foundBase, -, own, size⟩ :=
    size_of_declaredType made (show sprite ∈ sprites.types by simp [sprites])
  change program.types.lookup? "Sprite" = some type at found
  change program.types.lookup? "Point" = some base at foundBase
  have named : base.name = "Point" := by simpa [foundBase] using point
  rw [named, if_neg (by decide)] at size
  exact ⟨program, type, base, made, found, foundBase, own, size, by simpa [found] using whole⟩

/-- The byte that a type extends is missing from its size. -/
theorem size_ne_of_flag :
    ∃ program type base, ofModule sprites = .ok program ∧
      program.types.lookup? "Flag" = some type ∧ program.types.lookup? "byte" = some base ∧
      type.base? = some base.id ∧
      type.size ≠ base.size + totalSize ((type.fields.filter (!·.isStatic)).map (·.type)) := by
  obtain ⟨program, made, checked⟩ := exists_of_any
    (show (ofModule sprites).toOption.any (fun program =>
      (program.types.lookup? "Flag").any fun type => (program.types.lookup? "byte").any fun base =>
        type.base? = some base.id ∧
          type.size ≠ base.size + totalSize ((type.fields.filter (!·.isStatic)).map (·.type))) =
        true by decide +kernel)
  obtain ⟨type, found, checkedType⟩ := (Option.any_eq_true _ _).mp checked
  obtain ⟨base, foundBase, checkedBase⟩ := (Option.any_eq_true _ _).mp checkedType
  obtain ⟨based, differs⟩ := of_decide_eq_true checkedBase
  exact ⟨program, type, base, made, found, foundBase, based, differs⟩

end Sizes

end Program

end Cartridge
