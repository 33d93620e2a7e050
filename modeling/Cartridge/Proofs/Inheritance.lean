import Cartridge.Proofs.DeclaredTypes
import Mathlib.Data.List.Nodup
import Mathlib.Logic.Function.Iterate

/-!
Members that a type has from its bases.

A member is looked for in a type, then in its base, and so on upwards. Nothing in that search keeps
it from going round in a circle; it ends because a type is resolved after its base, so that in a
scope `object` stands above every type. On the way up no type is met twice, and so the number of
types bounds the search. What it finds is the nearest declaration.
-/

namespace Cartridge.Program

namespace Scope

/-- The type that stands some bases above another one, if there are so many. -/
def ancestor? (scope : Scope) (steps : Nat) (start : Option TypeId) : Option TypeId :=
  (fun type? : Option TypeId => type?.bind scope.base?)^[steps] start

/-- The type of a name. -/
def typeId? (scope : Scope) (name : String) : Option TypeId :=
  (findOrigin? scope.origins name).map Prod.snd

/-- A type has a member of its own, at a position. -/
def Owns (scope : Scope) (members : Origin → List String) (name : String) (id : TypeId)
    (index : Nat) : Prop :=
  ∃ origin, scope.origins[id]? = some origin ∧ (members origin)[index]? = some name

/-- The search for a member, with the number of types it looks into. It ends at the first type that
owns the member, or behind a type without a base, and has no bound of its own. -/
inductive Seeks (scope : Scope) (members : Origin → List String) (name : String) :
    Option TypeId → Nat → Option (TypeId × Nat) → Prop
  | ended : Seeks scope members name none 0 none
  | found {id : TypeId} {index : Nat} (owns : scope.Owns members name id index) :
    Seeks scope members name (some id) 1 (some (id, index))
  | climbed {id : TypeId} {rounds : Nat} {answer : Option (TypeId × Nat)}
    (lacks : ∀ index, ¬scope.Owns members name id index)
    (rest : Seeks scope members name (scope.base? id) rounds answer) :
    Seeks scope members name (some id) (rounds + 1) answer

/-- A type owns a member that none of those below it owns, down to where the search starts. -/
def Nearest (scope : Scope) (members : Origin → List String) (name : String)
    (start : Option TypeId) (owner : TypeId) (index : Nat) : Prop :=
  ∃ steps, scope.ancestor? steps start = some owner ∧ scope.Owns members name owner index ∧
    ∀ fewer < steps, ∀ nearer, scope.ancestor? fewer start = some nearer →
      ∀ other, ¬scope.Owns members name nearer other

/-- Neither a type nor one above it owns a member. -/
def Nowhere (scope : Scope) (members : Origin → List String) (name : String)
    (start : Option TypeId) : Prop :=
  ∀ steps type, scope.ancestor? steps start = some type →
    ∀ index, ¬scope.Owns members name type index

section Ancestors

variable {scope : Scope} {start : Option TypeId} {id root : TypeId} {steps : Nat}

theorem ancestor?_succ (scope : Scope) (steps : Nat) (start : Option TypeId) :
    scope.ancestor? (steps + 1) start = scope.ancestor? steps (start.bind scope.base?) :=
  Function.iterate_succ_apply _ _ _

theorem ancestor?_add (scope : Scope) (steps more : Nat) (start : Option TypeId) :
    scope.ancestor? (steps + more) start = scope.ancestor? steps (scope.ancestor? more start) :=
  Function.iterate_add_apply _ _ _ _

@[simp]
theorem ancestor?_none (scope : Scope) (steps : Nat) : scope.ancestor? steps none = none :=
  Function.iterate_fixed rfl steps

theorem ancestor?_beyond {more : Nat} (reached : scope.ancestor? steps start = some root)
    (last : scope.base? root = none) (beyond : steps < more) :
    scope.ancestor? more start = none := by
  obtain ⟨extra, rfl⟩ := Nat.exists_eq_add_of_lt beyond
  have split : steps + extra + 1 = extra + 1 + steps := by omega
  rw [split, ancestor?_add, reached, ancestor?_succ, Option.bind_some, last, ancestor?_none]

/-- On the way to a type without a base no type is met twice. -/
theorem ancestor?_ne_of_lt (reached : scope.ancestor? steps start = some root)
    (last : scope.base? root = none) {first second : Nat} (before : first < second)
    (inside : second ≤ steps) : scope.ancestor? first start ≠ scope.ancestor? second start := by
  intro same
  -- From the same type the same types follow, so the end would be reached early.
  have early : scope.ancestor? (steps - second + first) start = some root := by
    rw [ancestor?_add, same, ← ancestor?_add, Nat.sub_add_cancel inside, reached]
  have later : steps - second + first < steps := by omega
  have gone := ancestor?_beyond early last later
  rw [reached] at gone
  contradiction

theorem lt_of_base? {base : TypeId} (based : scope.base? id = some base) :
    base < scope.origins.length := by
  simp only [base?, Option.bind_eq_bind, Option.bind_eq_some_iff, Option.pure_def,
    Option.some.injEq] at based
  obtain ⟨origin, -, name, -, ⟨above, position⟩, found, rfl⟩ := based
  exact (List.getElem?_eq_some_iff.mp (findOrigin?_eq_some found).1).1

theorem ancestor?_lt (inside : ∀ id, start = some id → id < scope.origins.length)
    (reached : scope.ancestor? steps start = some root) : root < scope.origins.length := by
  induction steps generalizing start with
  | zero => exact inside root reached
  | succ steps ih =>
    rw [ancestor?_succ] at reached
    refine ih ?_ reached
    intro id based
    obtain ⟨below, -, up⟩ := Option.bind_eq_some_iff.mp based
    exact lt_of_base? up

/-- There are more types than steps to a type without a base. -/
theorem steps_lt (inside : id < scope.origins.length)
    (reached : scope.ancestor? steps (some id) = some root) (last : scope.base? root = none) :
    steps < scope.origins.length := by
  let passed := (List.range (steps + 1)).map fun step => scope.ancestor? step (some id)
  have distinct : passed.Nodup := by
    refine List.Nodup.map_on ?_ List.nodup_range
    intro first memberFirst second memberSecond same
    rw [List.mem_range] at memberFirst memberSecond
    rcases Nat.lt_trichotomy first second with before | equal | after
    · exact absurd same (ancestor?_ne_of_lt reached last before (by omega))
    · exact equal
    · exact absurd same.symm (ancestor?_ne_of_lt reached last after (by omega))
  have known : passed ⊆ (List.range scope.origins.length).map some := by
    intro type? member
    obtain ⟨step, early, rfl⟩ := List.mem_map.mp member
    rw [List.mem_range] at early
    cases met : scope.ancestor? step (some id) with
    | none =>
      have split : steps = steps - step + step := by omega
      rw [split, ancestor?_add, met, ancestor?_none] at reached
      contradiction
    | some type =>
      have bound := ancestor?_lt (fun other same => Option.some.inj same ▸ inside) met
      exact List.mem_map.mpr ⟨type, List.mem_range.mpr bound, rfl⟩
  have length := (List.subperm_of_subset distinct known).length_le
  rwa [List.length_map, List.length_map, List.length_range, List.length_range] at length

end Ancestors

section Searches

variable {scope : Scope} {members : Origin → List String} {name : String}
  {start : Option TypeId} {rounds : Nat} {answer : Option (TypeId × Nat)}

theorem findMember?_of_lacks {id : TypeId} (lacks : ∀ index, ¬scope.Owns members name id index)
    (steps : Nat) :
    scope.findMember? members name (steps + 1) id =
      (scope.base? id).bind (scope.findMember? members name steps) := by
  rw [findMember?]
  cases here : scope.origins[id]? with
  | none => simp [base?, here]
  | some origin =>
    have absent : (members origin).findIdx? (· == name) = none := by
      refine List.findIdx?_eq_none_iff.mpr ?_
      intro other member
      obtain ⟨index, there⟩ := List.getElem?_of_mem member
      by_contra same
      obtain rfl : other = name := by simpa using same
      exact lacks index ⟨origin, here, there⟩
    simp only [absent]
    cases scope.base? id with
    | none => rfl
    | some base => rfl

theorem Seeks.nearest {owner : TypeId} {index : Nat}
    (seeks : scope.Seeks members name start rounds (some (owner, index))) :
    scope.Nearest members name start owner index := by
  generalize found : some (owner, index) = answer at seeks
  induction seeks with
  | ended => cases found
  | found owns =>
    cases found
    exact ⟨0, rfl, owns, fun _ few => absurd few (Nat.not_lt_zero _)⟩
  | climbed lacks rest ih =>
    obtain ⟨steps, reached, owns, first⟩ := ih found
    refine ⟨steps + 1, reached, owns, ?_⟩
    intro fewer few nearer met other
    cases fewer with
    | zero =>
      obtain rfl := Option.some.inj met
      exact lacks other
    | succ fewer => exact first fewer (Nat.lt_of_succ_lt_succ few) nearer met other

theorem Seeks.nowhere (seeks : scope.Seeks members name start rounds none) :
    scope.Nowhere members name start := by
  generalize missed : (none : Option (TypeId × Nat)) = answer at seeks
  induction seeks with
  | ended =>
    intro steps type reached
    rw [ancestor?_none] at reached
    contradiction
  | found owns => cases missed
  | climbed lacks rest ih =>
    intro steps type reached
    cases steps with
    | zero =>
      obtain rfl := Option.some.inj reached
      exact lacks
    | succ steps => exact ih missed steps type reached

theorem Seeks.eq_none_iff (seeks : scope.Seeks members name start rounds answer) :
    answer = none ↔ scope.Nowhere members name start := by
  constructor
  · rintro rfl
    exact seeks.nowhere
  · intro nowhere
    cases answer with
    | none => rfl
    | some place =>
      obtain ⟨steps, reached, owns, -⟩ := seeks.nearest
      exact absurd owns (nowhere steps place.1 reached place.2)

variable (distinct : ∀ origin ∈ scope.origins, (members origin).Nodup)
include distinct

theorem Owns.unique {id : TypeId} {index other : Nat} (owns : scope.Owns members name id index)
    (again : scope.Owns members name id other) : index = other := by
  obtain ⟨origin, here, there⟩ := owns
  obtain ⟨same, hereToo, thereToo⟩ := again
  obtain rfl := Option.some.inj (here.symm.trans hereToo)
  have bound := (List.getElem?_eq_some_iff.mp there).1
  exact (List.getElem?_inj bound (distinct origin (List.mem_of_getElem? here))).mp
    (there.trans thereToo.symm)

theorem findMember?_of_owns {id : TypeId} {index : Nat} (owns : scope.Owns members name id index)
    (steps : Nat) : scope.findMember? members name (steps + 1) id = some (id, index) := by
  obtain ⟨origin, here, there⟩ := owns
  rw [findMember?]
  simp only [here]
  cases sought : (members origin).findIdx? (· == name) with
  | none =>
    have absent := List.findIdx?_eq_none_iff.mp sought name (List.mem_of_getElem? there)
    simp at absent
  | some first =>
    obtain ⟨bound, same, -⟩ := List.findIdx?_eq_some_iff_getElem.mp sought
    have ownsFirst : scope.Owns members name id first :=
      ⟨origin, here, by simpa [bound] using same⟩
    rw [ownsFirst.unique distinct ⟨origin, here, there⟩]

/-- Where the bases end within some steps, that many types are enough to look into. -/
theorem seeks_findMember? {steps : Nat} (ends : scope.ancestor? steps start = none) :
    ∃ rounds ≤ steps, scope.Seeks members name start rounds
      (start.bind (scope.findMember? members name steps)) := by
  -- One type is looked into for each base that is followed, so both bounds fall together.
  induction steps generalizing start with
  | zero =>
    obtain rfl : start = none := ends
    exact ⟨0, Nat.le_refl 0, .ended⟩
  | succ steps ih =>
    cases start with
    | none => exact ⟨0, Nat.zero_le _, .ended⟩
    | some id =>
      by_cases owned : ∃ index, scope.Owns members name id index
      · obtain ⟨index, owns⟩ := owned
        refine ⟨1, Nat.le_add_left 1 steps, ?_⟩
        rw [Option.bind_some, findMember?_of_owns distinct owns]
        exact .found owns
      · have lacks := not_exists.mp owned
        rw [ancestor?_succ] at ends
        obtain ⟨rounds, few, rest⟩ := ih ends
        refine ⟨rounds + 1, Nat.succ_le_succ few, ?_⟩
        rw [Option.bind_some, findMember?_of_lacks lacks]
        exact .climbed lacks rest

theorem Seeks.unique {other : Nat} {result : Option (TypeId × Nat)}
    (seeks : scope.Seeks members name start rounds answer)
    (again : scope.Seeks members name start other result) : rounds = other ∧ answer = result := by
  induction seeks generalizing other result with
  | ended =>
    cases again with
    | ended => exact ⟨rfl, rfl⟩
  | found owns =>
    cases again with
    | found ownsToo => exact ⟨rfl, by rw [owns.unique distinct ownsToo]⟩
    | climbed lacks => exact absurd owns (lacks _)
  | climbed lacks rest ih =>
    cases again with
    | found owns => exact absurd owns (lacks _)
    | climbed _ restToo =>
      obtain ⟨sameRounds, sameAnswer⟩ := ih restToo
      exact ⟨congrArg (· + 1) sameRounds, sameAnswer⟩

theorem Nearest.unique {owner other : TypeId} {index position : Nat}
    (nearest : scope.Nearest members name start owner index)
    (again : scope.Nearest members name start other position) :
    (owner, index) = (other, position) := by
  obtain ⟨steps, reached, owns, first⟩ := nearest
  obtain ⟨stepsToo, reachedToo, ownsToo, firstToo⟩ := again
  rcases Nat.lt_trichotomy steps stepsToo with before | rfl | after
  · exact absurd owns (firstToo steps before owner reached index)
  · obtain rfl := Option.some.inj (reached.symm.trans reachedToo)
    rw [owns.unique distinct ownsToo]
  · exact absurd ownsToo (first stepsToo after other reachedToo position)

theorem Seeks.eq_some_iff (seeks : scope.Seeks members name start rounds answer) {owner : TypeId}
    {index : Nat} :
    answer = some (owner, index) ↔ scope.Nearest members name start owner index := by
  constructor
  · rintro rfl
    exact seeks.nearest
  · intro nearest
    cases answer with
    | none =>
      obtain ⟨steps, reached, owns, -⟩ := nearest
      exact absurd owns (seeks.nowhere steps owner reached index)
    | some place => exact congrArg some (seeks.nearest.unique distinct nearest)

end Searches

/-- Some bases above a type stands `object`. -/
def Rooted (scope : Scope) (id : TypeId) : Prop :=
  ∃ steps root, scope.ancestor? steps (some id) = some root ∧
    scope.origins[root]? = some (.builtin .object)

theorem Rooted.up {scope : Scope} {id base : TypeId} (rooted : scope.Rooted base)
    (based : scope.base? id = some base) : scope.Rooted id := by
  obtain ⟨steps, root, reached, object⟩ := rooted
  refine ⟨steps + 1, root, ?_, object⟩
  rw [ancestor?_succ, Option.bind_some, based, reached]

theorem base?_object {scope : Scope} {id : TypeId}
    (object : scope.origins[id]? = some (.builtin .object)) : scope.base? id = none := by
  simp [base?, object, Origin.baseName?, Primitive.base?]

section Modules

variable {module : Source.Module} {scope : Scope} (made : ofModule module = .ok scope)
include made

theorem builtin_mem (kind : Primitive) : Origin.builtin kind ∈ scope.origins := by
  rw [(ofModule_eq_ok_iff.mp made).1]
  cases kind <;> simp [originsOf, Primitive.all]

/-- A type has the base that it names. -/
theorem exists_base {id : TypeId} {origin : Origin} (found : scope.origins[id]? = some origin)
    {name : String} (named : origin.baseName? = some name) :
    ∃ base above, scope.base? id = some base ∧ scope.origins[base]? = some above ∧
      above.name = name := by
  have meaningful := (ofModule_eq_ok_iff.mp made).2
  have declared : ∃ entry, findOrigin? scope.origins name = some entry := by
    cases origin with
    | builtin kind =>
      obtain ⟨parent, -, rfl⟩ := Option.map_eq_some_iff.mp named
      obtain ⟨position, there⟩ := List.getElem?_of_mem (builtin_mem made parent)
      exact ⟨_, findOrigin?_of_getElem? meaningful.named.types there⟩
    | declared decl =>
      obtain rfl := Option.some.inj named
      obtain ⟨value, -, means⟩ := meaningful.getElem? found
      have itself := typeNamed?_eq_some meaningful.named.types found
      cases means with
      | builtin again => cases itself.symm.trans again
      | declared again based =>
        obtain rfl := declared_unique itself again
        exact findOrigin?_of_denotes based
  obtain ⟨⟨above, base⟩, sought⟩ := declared
  obtain ⟨inside, same⟩ := findOrigin?_eq_some sought
  exact ⟨base, above, by simp [base?, found, named, sought], inside, same⟩

theorem rooted_builtin {id : TypeId} {kind : Primitive}
    (found : scope.origins[id]? = some (.builtin kind)) : scope.Rooted id := by
  have distinct := (ofModule_eq_ok_iff.mp made).2.named.types
  have up : ∀ {id kind parent}, scope.origins[id]? = some (.builtin kind) →
      kind.base? = some parent →
      (∀ base, scope.origins[base]? = some (.builtin parent) → scope.Rooted base) →
      scope.Rooted id := by
    intro id kind parent found above rooted
    obtain ⟨base, origin, based, there, same⟩ :=
      exists_base made found (congrArg (Option.map Primitive.name) above)
    obtain rfl := List.inj_on_of_nodup_map distinct (List.mem_of_getElem? there)
      (builtin_mem made parent) same
    exact (rooted base there).up based
  have object : ∀ id, scope.origins[id]? = some (.builtin .object) → scope.Rooted id :=
    fun id found => ⟨0, id, rfl, found⟩
  have value : ∀ id, scope.origins[id]? = some (.builtin .value) → scope.Rooted id :=
    fun id found => up found rfl object
  cases kind with
  | object => exact object id found
  | value => exact value id found
  | void => exact up found rfl value
  | byte => exact up found rfl value
  | bool => exact up found rfl value

/-- `object` stands above every type, since the base of a type is resolved before it. -/
theorem rooted_of_ofModule {id : TypeId} {origin : Origin}
    (found : scope.origins[id]? = some origin) : scope.Rooted id := by
  have meaningful := (ofModule_eq_ok_iff.mp made).2
  obtain ⟨value, -, means⟩ := meaningful.getElem? found
  -- The meaning of a type is made of the meaning of its base, so the induction follows the bases.
  generalize named : TypeReference.named origin.name = reference at means
  induction means generalizing id origin with
  | pointer => cases named
  | builtin builtin =>
    obtain rfl := TypeReference.named.inj named
    obtain rfl := Option.some.inj
      ((typeNamed?_eq_some meaningful.named.types found).symm.trans builtin)
    exact rooted_builtin made found
  | declared declared based typed rooted =>
    obtain rfl := TypeReference.named.inj named
    obtain rfl := Option.some.inj
      ((typeNamed?_eq_some meaningful.named.types found).symm.trans declared)
    obtain ⟨base, above, up, there, same⟩ := exists_base made found rfl
    exact (rooted there (congrArg TypeReference.named same)).up up

/-- Bases are followed to `object` in fewer steps than there are types. -/
theorem exists_steps_to_object {id : TypeId} (inside : id < scope.origins.length) :
    ∃ steps < scope.origins.length, ∃ root, scope.ancestor? steps (some id) = some root ∧
      scope.origins[root]? = some (.builtin .object) ∧ scope.base? root = none := by
  obtain ⟨steps, root, reached, object⟩ :=
    rooted_of_ofModule made (List.getElem?_eq_getElem inside)
  have last := base?_object object
  exact ⟨steps, steps_lt inside reached last, root, reached, object, last⟩

theorem typeId?_eq_some_iff {name : String} {id : TypeId} :
    scope.typeId? name = some id ↔ scope.naming.type id = some name := by
  have distinct := (ofModule_eq_ok_iff.mp made).2.named.types
  constructor
  · intro named
    obtain ⟨⟨origin, position⟩, sought, rfl⟩ := Option.map_eq_some_iff.mp named
    obtain ⟨found, same⟩ := findOrigin?_eq_some sought
    exact Option.map_eq_some_iff.mpr ⟨origin, found, same⟩
  · intro named
    obtain ⟨origin, found, rfl⟩ := Option.map_eq_some_iff.mp named
    exact Option.map_eq_some_iff.mpr ⟨_, findOrigin?_of_getElem? distinct found, rfl⟩

theorem typeId?_eq_none_iff {name : String} :
    scope.typeId? name = none ↔ ∀ id, scope.naming.type id ≠ some name := by
  rw [Option.eq_none_iff_forall_ne_some]
  exact forall_congr' fun id => not_congr (typeId?_eq_some_iff made)

theorem ancestor?_ends (name : String) :
    scope.ancestor? scope.origins.length (scope.typeId? name) = none := by
  cases start : scope.typeId? name with
  | none => exact ancestor?_none scope _
  | some id =>
    obtain ⟨origin, found, -⟩ := Option.map_eq_some_iff.mp ((typeId?_eq_some_iff made).mp start)
    obtain ⟨steps, few, root, reached, -, last⟩ :=
      exists_steps_to_object made (List.getElem?_eq_some_iff.mp found).1
    exact ancestor?_beyond reached last few

theorem nodup_members {members : Origin → List String}
    (kind : members ∈ [Origin.fieldNames, Origin.subroutineNames]) :
    ∀ origin ∈ scope.origins, (members origin).Nodup := by
  have named := (ofModule_eq_ok_iff.mp made).2.named
  rcases List.mem_pair.mp kind with rfl | rfl
  · exact named.fields
  · exact named.subroutines

/-- The search for a member ends, and what it finds is what the scope answers. -/
theorem seeks_member? {members : Origin → List String}
    (distinct : ∀ origin ∈ scope.origins, (members origin).Nodup) (member : Source.MemberName) :
    ∃ rounds ≤ scope.origins.length, scope.Seeks members member.name (scope.typeId? member.type)
      rounds (scope.member? members member) := by
  have answer : scope.member? members member = (scope.typeId? member.type).bind
      (scope.findMember? members member.name scope.origins.length) := by
    unfold member? typeId?
    cases findOrigin? scope.origins member.type with
    | none => rfl
    | some entry => rfl
  rw [answer]
  exact seeks_findMember? distinct (ancestor?_ends made member.type)

theorem nearest_typeId?_iff {members : Origin → List String} {type name : String}
    {owner : TypeId} {index : Nat} :
    scope.Nearest members name (scope.typeId? type) owner index ↔
      ∃ id, scope.naming.type id = some type ∧
        scope.Nearest members name (some id) owner index := by
  constructor
  · intro nearest
    cases start : scope.typeId? type with
    | none =>
      obtain ⟨steps, reached, -⟩ := nearest
      rw [start, ancestor?_none] at reached
      contradiction
    | some id =>
      rw [start] at nearest
      exact ⟨id, (typeId?_eq_some_iff made).mp start, nearest⟩
  · rintro ⟨id, named, nearest⟩
    rwa [(typeId?_eq_some_iff made).mpr named]

theorem nowhere_typeId?_iff {members : Origin → List String} {type name : String} :
    scope.Nowhere members name (scope.typeId? type) ↔
      (∀ id, scope.naming.type id ≠ some type) ∨
        ∃ id, scope.naming.type id = some type ∧ scope.Nowhere members name (some id) := by
  constructor
  · intro nowhere
    cases start : scope.typeId? type with
    | none => exact .inl ((typeId?_eq_none_iff made).mp start)
    | some id =>
      rw [start] at nowhere
      exact .inr ⟨id, (typeId?_eq_some_iff made).mp start, nowhere⟩
  · rintro (unknown | ⟨id, named, nowhere⟩)
    · rw [(typeId?_eq_none_iff made).mpr unknown]
      exact Seeks.ended.nowhere
    · rwa [(typeId?_eq_some_iff made).mpr named]

end Modules

end Scope

/-- In every module whose types can be resolved, following bases from any type leads to `object` in
fewer steps than there are types. So the search for a field or a subroutine ends for every
reference, and with one answer only: the member that the type itself or the closest type above it
declares. There is none exactly if the type is unknown, or neither it nor any type above it declares
the member. -/
theorem member_found_nearest {module : Source.Module} {scope : Scope}
    (made : Scope.ofModule module = .ok scope) :
    (∀ id < scope.origins.length, ∃ steps < scope.origins.length, ∃ root,
      scope.ancestor? steps (some id) = some root ∧
      scope.origins[root]? = some (.builtin .object) ∧ scope.base? root = none) ∧
    ∀ members ∈ [Origin.fieldNames, Origin.subroutineNames], ∀ member : Source.MemberName,
      (∃ rounds ≤ scope.origins.length, scope.Seeks members member.name
        (scope.typeId? member.type) rounds (scope.member? members member)) ∧
      (∀ rounds answer,
        scope.Seeks members member.name (scope.typeId? member.type) rounds answer →
          rounds ≤ scope.origins.length ∧ answer = scope.member? members member) ∧
      (∀ owner index, scope.member? members member = some (owner, index) ↔
        ∃ id, scope.naming.type id = some member.type ∧
          scope.Nearest members member.name (some id) owner index) ∧
      (scope.member? members member = none ↔
        (∀ id, scope.naming.type id ≠ some member.type) ∨
        ∃ id, scope.naming.type id = some member.type ∧
          scope.Nowhere members member.name (some id)) := by
  refine ⟨fun id inside => Scope.exists_steps_to_object made inside, ?_⟩
  intro members kind member
  have distinct := Scope.nodup_members made kind
  obtain ⟨rounds, few, seeks⟩ := Scope.seeks_member? made distinct member
  refine ⟨⟨rounds, few, seeks⟩, ?_, ?_, ?_⟩
  · intro other answer again
    obtain ⟨rfl, same⟩ := seeks.unique distinct again
    exact ⟨few, same.symm⟩
  · intro owner index
    exact (seeks.eq_some_iff distinct).trans (Scope.nearest_typeId?_iff made)
  · exact seeks.eq_none_iff.trans (Scope.nowhere_typeId?_iff made)

/-- Three types, the last one first, of which two declare the same subroutine. The first of them
extends a built-in type. -/
def lineage : Source.Module :=
  { types :=
      [{ name := "Boss", base? := some "Guard", fields := [⟨"Rage", "byte", false⟩] },
       { name := "Guard", base? := some "Walker"
         subroutines := [{ name := "Turn" }, { name := "Step" }] },
       { name := "Walker", base? := some "byte", fields := [⟨"Count", "byte", true⟩]
         subroutines := [{ name := "Step" }] }] }

theorem member_found_nearest_lineage :
    ∃ scope, Scope.ofModule lineage = .ok scope ∧ scope.origins.length = 8 ∧
      (∃ steps < 8, ∃ root, scope.ancestor? steps (some 5) = some root ∧
        scope.origins[root]? = some (.builtin .object)) ∧
      scope.member? Origin.subroutineNames ⟨"Boss", "Step"⟩ = some (6, 1) ∧
      (∃ id, scope.naming.type id = some "Boss" ∧
        scope.Nearest Origin.subroutineNames "Step" (some id) 6 1) ∧
      scope.member? Origin.fieldNames ⟨"Boss", "Lives"⟩ = none ∧
      ∃ id, scope.naming.type id = some "Boss" ∧
        scope.Nowhere Origin.fieldNames "Lives" (some id) := by
  have passed : (Scope.ofModule lineage).toOption.any (fun scope =>
      scope.origins.length == 8 && scope.naming.type 5 == some "Boss" &&
      scope.member? Origin.subroutineNames ⟨"Boss", "Step"⟩ == some (6, 1) &&
      scope.member? Origin.fieldNames ⟨"Boss", "Lives"⟩ == none) = true := by
    decide +kernel
  obtain ⟨scope, made, facts⟩ := exists_of_any passed
  simp only [Bool.and_eq_true, beq_iff_eq] at facts
  obtain ⟨⟨⟨eight, boss⟩, step⟩, lives⟩ := facts
  obtain ⟨rooted, found⟩ := member_found_nearest made
  obtain ⟨steps, few, root, reached, object, -⟩ := rooted 5 (by omega)
  obtain ⟨-, -, nearest, -⟩ := found Origin.subroutineNames (by simp) ⟨"Boss", "Step"⟩
  obtain ⟨-, -, -, missing⟩ := found Origin.fieldNames (by simp) ⟨"Boss", "Lives"⟩
  have nowhere := (missing.mp lives).resolve_left fun unknown => unknown 5 boss
  exact ⟨scope, made, eight, ⟨steps, eight ▸ few, root, reached, object⟩, step,
    (nearest 6 1).mp step, lives, nowhere⟩

end Cartridge.Program
