import Cartridge.Program.TypeTable
import Cartridge.Proofs.Keys
import Cartridge.Proofs.Lowering

/-!
Tables that are made by updates.

However a table came about, its types stand at the positions that their ids say, under distinct
names, and its index tells for each name the position of the type that has it. The replacement of a
subroutine relies on this: it replaces the whole type that declares it, and where that type goes is
told by the id that the type itself carries. As every replacement keeps the name, the index that it
leaves alone stays in step.
-/

namespace Cartridge.Program

open Emit (bind_eq_ok pure_eq_ok)

/-- A list in which one entry gave way to another of its name. -/
structure Replaces {α : Type} (name : α → String) (before : List α) (index : Nat) (entry : α)
    (after : List α) : Prop where
  there : after[index]? = some entry
  elsewhere : ∀ other, other ≠ index → after[other]? = before[other]?
  names : after.map name = before.map name

theorem replaces_set {α : Type} {name : α → String} {entries : List α} {index : Nat}
    {entry present : α} (found : entries[index]? = some present)
    (same : name present = name entry) :
    Replaces name entries index entry (entries.set index entry) := by
  obtain ⟨inside, rfl⟩ := List.getElem?_eq_some_iff.mp found
  refine ⟨List.getElem?_set_self inside, ?_, ?_⟩
  · intro other apart
    exact List.getElem?_set_ne (Ne.symm apart)
  · have named : (entries.map name)[index]? = some (name entry) := by
      rw [List.getElem?_map, found, Option.map_some, same]
    obtain ⟨_, sameThere⟩ := List.getElem?_eq_some_iff.mp named
    rw [List.map_set, ← sameThere, List.set_getElem_self]

namespace TypeTable

/-- What can be done to a table. -/
inductive Update where
  | add (type : DeclaredType)
  | replaceType (type : DeclaredType)
  | replaceSubroutine (subroutine : Subroutine)

def apply (table : TypeTable) : Update → Except TableError TypeTable
  | .add type => table.add type
  | .replaceType type => table.replaceType type
  | .replaceSubroutine subroutine => table.replaceSubroutine subroutine

/-- A name or an id stands against the addition, or what is to be replaced is not there. -/
def Update.Refused (table : TypeTable) : Update → Prop
  | .add type => (∃ present ∈ table.types, present.name = type.name) ∨ type.id ≠ table.nextId
  | .replaceType type =>
    ¬∃ present, table.get? type.id = some present ∧ present.name = type.name
  | .replaceSubroutine subroutine =>
    ¬∃ present, table.subroutine? subroutine.id = some present ∧ present.name = subroutine.name

/-- What an update changes, and that it changes nothing else. -/
def Update.Yields (table after : TypeTable) : Update → Prop
  | .add type => after.types = table.types ++ [type]
  | .replaceType type => Replaces (·.name) table.types type.id type after.types
  | .replaceSubroutine subroutine =>
    ∃ declaring subroutines, table.get? subroutine.id.owner = some declaring ∧
      Replaces (·.name) declaring.subroutines subroutine.id.index subroutine subroutines ∧
      Replaces (·.name) table.types subroutine.id.owner { declaring with subroutines } after.types

/-- Every type stands where its id says, and the index tells under each name the one type that has
it. -/
structure Ordered (table : TypeTable) : Prop where
  ids : ∀ id type, table.get? id = some type → type.id = id
  index : ∀ name id, table.names.lookup name = some id ↔
    ∃ type, table.get? id = some type ∧ type.name = name

section Steps

variable {table after : TypeTable} {type : DeclaredType} {subroutine : Subroutine}

theorem get?_of_lookup? {name : String} (looked : table.lookup? name = some type) :
    ∃ id, table.get? id = some type := by
  obtain ⟨id, -, found⟩ := Option.bind_eq_some_iff.mp looked
  exact ⟨id, found⟩

theorem Ordered.isSome_lookup (ordered : table.Ordered) {name : String} :
    (table.names.lookup name).isSome = true ↔ ∃ present ∈ table.types, present.name = name := by
  rw [Option.isSome_iff_exists]
  constructor
  · rintro ⟨id, entered⟩
    obtain ⟨present, found, named⟩ := (ordered.index name id).mp entered
    exact ⟨present, List.mem_of_getElem? found, named⟩
  · rintro ⟨present, member, named⟩
    obtain ⟨id, found⟩ := List.getElem?_of_mem member
    exact ⟨id, (ordered.index name id).mpr ⟨present, found, named⟩⟩

/-- What one name leads to is one position. -/
theorem Ordered.nodup_names (ordered : table.Ordered) : (table.types.map (·.name)).Nodup := by
  rw [List.nodup_iff_pairwise_ne, List.pairwise_map, List.pairwise_iff_getElem]
  intro first second inside insideToo before same
  have here := (ordered.index _ first).mpr ⟨_, List.getElem?_eq_getElem inside, same⟩
  have there := (ordered.index _ second).mpr ⟨_, List.getElem?_eq_getElem insideToo, rfl⟩
  exact absurd (Option.some.inj (here.symm.trans there)) (Nat.ne_of_lt before)

theorem add_eq_ok_iff :
    table.add type = .ok after ↔
      (table.names.lookup type.name).isSome = false ∧ type.id = table.nextId ∧
        after = ⟨table.types ++ [type], (type.name, type.id) :: table.names⟩ := by
  rw [add]
  by_cases present : (table.names.lookup type.name).isSome = true
  · simp [present]
  · by_cases next : type.id = table.nextId
    · simp [present, next, eq_comm]
    · simp [present, next]

theorem replaceType_eq_ok_iff :
    table.replaceType type = .ok after ↔
      (∃ present, table.get? type.id = some present ∧ present.name = type.name) ∧
        after = { table with types := table.types.set type.id type } := by
  unfold replaceType
  cases table.get? type.id with
  | none => simp
  | some present =>
    by_cases same : present.name = type.name
    · simp [same, eq_comm]
    · simp [same]

theorem replaceSubroutine_eq_ok_iff (ordered : table.Ordered) :
    table.replaceSubroutine subroutine = .ok after ↔
      ∃ declaring present, table.get? subroutine.id.owner = some declaring ∧
        declaring.subroutines[subroutine.id.index]? = some present ∧
        present.name = subroutine.name ∧
        after = { table with types := table.types.set subroutine.id.owner { declaring with
          subroutines := declaring.subroutines.set subroutine.id.index subroutine } } := by
  unfold replaceSubroutine
  cases owned : table.get? subroutine.id.owner with
  | none => simp
  | some declaring =>
    have named := ordered.ids _ _ owned
    cases found : declaring.subroutines[subroutine.id.index]? with
    | none => simp [found]
    | some present =>
      by_cases same : present.name = subroutine.name
      · simp [found, same, replaceType_eq_ok_iff, named, owned]
      · simp [found, same]

theorem apply_eq_ok_iff (ordered : table.Ordered) {update : Update} :
    (∃ after, table.apply update = .ok after) ↔ ¬update.Refused table := by
  cases update with
  | add type =>
    simp only [apply, add_eq_ok_iff, Update.Refused, ← ordered.isSome_lookup]
    rw [not_or, not_not, Bool.not_eq_true]
    constructor
    · rintro ⟨after, fresh, next, -⟩
      exact ⟨fresh, next⟩
    · intro ⟨fresh, next⟩
      exact ⟨_, fresh, next, rfl⟩
  | replaceType type =>
    simp only [apply, replaceType_eq_ok_iff, Update.Refused, not_not]
    constructor
    · rintro ⟨after, present, -⟩
      exact present
    · intro present
      exact ⟨_, present, rfl⟩
  | replaceSubroutine subroutine =>
    simp only [apply, replaceSubroutine_eq_ok_iff ordered, Update.Refused, not_not]
    constructor
    · rintro ⟨after, declaring, present, owned, found, same, -⟩
      exact ⟨present, Option.bind_eq_some_iff.mpr ⟨declaring, owned, found⟩, same⟩
    · intro ⟨present, found, same⟩
      obtain ⟨declaring, owned, inside⟩ := Option.bind_eq_some_iff.mp found
      exact ⟨_, declaring, present, owned, inside, same, rfl⟩

theorem yields_of_apply (ordered : table.Ordered) {update : Update}
    (applied : table.apply update = .ok after) : update.Yields table after := by
  cases update with
  | add type =>
    obtain ⟨-, -, rfl⟩ := add_eq_ok_iff.mp applied
    rfl
  | replaceType type =>
    obtain ⟨⟨present, found, same⟩, rfl⟩ := replaceType_eq_ok_iff.mp applied
    exact replaces_set found same
  | replaceSubroutine subroutine =>
    obtain ⟨declaring, present, owned, found, same, rfl⟩ :=
      (replaceSubroutine_eq_ok_iff ordered).mp applied
    exact ⟨declaring, _, owned, replaces_set found same, replaces_set owned rfl⟩

theorem Ordered.replace (ordered : table.Ordered) {id : TypeId}
    (replaced : Replaces (·.name) table.types id type after.types) (named : type.id = id)
    (kept : after.names = table.names) : after.Ordered := by
  refine ⟨?_, ?_⟩
  · intro position present found
    by_cases there : position = id
    · rw [there] at found ⊢
      obtain rfl := Option.some.inj (replaced.there.symm.trans found)
      exact named
    · exact ordered.ids position present ((replaced.elsewhere position there).symm.trans found)
  · intro name position
    have same : after.types[position]?.map (·.name) = table.types[position]?.map (·.name) := by
      rw [← List.getElem?_map, replaced.names, List.getElem?_map]
    rw [kept, ordered.index, ← Option.map_eq_some_iff, ← Option.map_eq_some_iff]
    exact Eq.congr_left same.symm

theorem Ordered.add (ordered : table.Ordered) (added : table.add type = .ok after) :
    after.Ordered := by
  obtain ⟨fresh, next, rfl⟩ := add_eq_ok_iff.mp added
  have found : ∀ id present, (table.types ++ [type])[id]? = some present ↔
      table.get? id = some present ∨ id = type.id ∧ present = type := by
    intro id present
    rw [next, List.getElem?_append]
    split
    next before =>
      have other : id ≠ table.nextId := Nat.ne_of_lt before
      simp [get?, other]
    next behind =>
      have none : table.get? id = none := List.getElem?_eq_none (Nat.not_lt.mp behind)
      rcases Nat.eq_or_lt_of_le (Nat.not_lt.mp behind) with rfl | beyond
      · simp [none, nextId, size, eq_comm]
      · have other : id ≠ table.nextId := Nat.ne_of_gt beyond
        have past : id - table.types.length ≠ 0 := Nat.sub_ne_zero_of_lt beyond
        simp [none, other, past]
  refine ⟨?_, ?_⟩
  · intro id present placed
    rcases (found id present).mp placed with earlier | ⟨rfl, rfl⟩
    · exact ordered.ids id present earlier
    · rfl
  · intro name id
    rw [List.lookup_cons]
    simp only [get?, found]
    split
    next same =>
      obtain rfl : name = type.name := by simpa using same
      -- A name that was free is that of the new type alone.
      have absent : ∀ present, table.get? id = some present → present.name ≠ type.name := by
        intro present placed named
        have entered := (ordered.index type.name id).mpr ⟨present, placed, named⟩
        simp [entered] at fresh
      constructor
      · intro here
        exact ⟨type, .inr ⟨(Option.some.inj here).symm, rfl⟩, rfl⟩
      · rintro ⟨present, earlier | ⟨rfl, rfl⟩, named⟩
        · exact absurd named (absent present earlier)
        · rfl
    next other =>
      have apart : type.name ≠ name := by
        rintro rfl
        simp at other
      rw [ordered.index]
      constructor
      · rintro ⟨present, placed, named⟩
        exact ⟨present, .inl placed, named⟩
      · rintro ⟨present, earlier | ⟨-, rfl⟩, named⟩
        · exact ⟨present, earlier, named⟩
        · exact absurd named apart

/-- One update keeps positions, ids and the index in step. -/
theorem Ordered.apply (ordered : table.Ordered) {update : Update}
    (applied : table.apply update = .ok after) : after.Ordered := by
  have yields := yields_of_apply ordered applied
  cases update with
  | add type => exact ordered.add applied
  | replaceType type =>
    obtain ⟨-, rfl⟩ := replaceType_eq_ok_iff.mp applied
    exact ordered.replace yields rfl rfl
  | replaceSubroutine subroutine =>
    obtain ⟨declaring, subroutines, owned, -, replaced⟩ := yields
    have named := ordered.ids _ _ owned
    obtain ⟨_, _, _, _, _, rfl⟩ := (replaceSubroutine_eq_ok_iff ordered).mp applied
    exact ordered.replace replaced named rfl

theorem ordered_empty : ({} : TypeTable).Ordered := by
  refine ⟨?_, ?_⟩
  · intro id type found
    simp [get?] at found
  · intro name id
    simp [get?]

theorem Ordered.run (ordered : table.Ordered) {updates : List Update}
    (ran : updates.foldlM TypeTable.apply table = .ok after) : after.Ordered := by
  induction updates generalizing table with
  | nil =>
    obtain rfl := pure_eq_ok.mp ran
    exact ordered
  | cons update updates ih =>
    rw [List.foldlM_cons] at ran
    obtain ⟨next, applied, rest⟩ := bind_eq_ok.mp ran
    exact ih (ordered.apply applied) rest

theorem Ordered.lookup?_eq_some (ordered : table.Ordered) {name : String} :
    table.lookup? name = some type ↔ ∃ id, table.get? id = some type ∧ type.name = name := by
  rw [lookup?]
  constructor
  · intro looked
    obtain ⟨id, entered, found⟩ := Option.bind_eq_some_iff.mp looked
    obtain ⟨present, placed, named⟩ := (ordered.index name id).mp entered
    obtain rfl := Option.some.inj (placed.symm.trans found)
    exact ⟨id, found, named⟩
  · rintro ⟨id, found, named⟩
    exact Option.bind_eq_some_iff.mpr
      ⟨id, (ordered.index name id).mpr ⟨type, found, named⟩, found⟩

/-- In step with the types, the index answers as a search through them would. -/
theorem Ordered.lookup?_eq_find? (ordered : table.Ordered) (name : String) :
    table.lookup? name = table.types.find? (·.name == name) := by
  apply Option.ext
  intro type
  rw [ordered.lookup?_eq_some, find?_key_eq_some ordered.nodup_names, List.mem_iff_getElem?,
    exists_and_right]
  rfl

end Steps

/-- Any sequence of updates leaves a table in which position, id and name of a type determine each
other and the index tells the position of every name. The next update changes what it addresses and
nothing else, or is refused because of a name or a position. -/
theorem updates_keep_order {updates : List Update} {table : TypeTable}
    (made : updates.foldlM TypeTable.apply {} = .ok table) :
    (∀ id type, table.get? id = some type → type.id = id) ∧
    (table.types.map (·.name)).Nodup ∧
    (∀ name id, table.names.lookup name = some id ↔
      ∃ type, table.get? id = some type ∧ type.name = name) ∧
    (∀ name type, table.lookup? name = some type ↔
      ∃ id, table.get? id = some type ∧ type.name = name) ∧
    table.nextId = table.types.length ∧
    ∀ update : Update,
      ((∃ error, table.apply update = .error error) ↔ update.Refused table) ∧
      ∀ after, table.apply update = .ok after → update.Yields table after := by
  have ordered := ordered_empty.run made
  refine ⟨ordered.ids, ordered.nodup_names, ordered.index,
    fun name type => ordered.lookup?_eq_some, rfl, ?_⟩
  intro update
  refine ⟨?_, fun after applied => yields_of_apply ordered applied⟩
  rw [← not_iff_not, ← apply_eq_ok_iff ordered]
  cases table.apply update <;> simp

/-- A type with subroutines of the given names. -/
def typeWith (id : TypeId) (name : String) (subroutines : List String) : DeclaredType :=
  { id, name, value := .primitive .object
    subroutines := subroutines.zipIdx.map fun (subroutine, index) =>
      { id := ⟨id, index⟩, name := subroutine, fullName := name ++ "::" ++ subroutine } }

def tickWithBody : Subroutine :=
  { id := ⟨0, 1⟩, name := "Tick", fullName := "Game::Tick", body? := some { code := [.op .rts] } }

/-- Two types, the first of which gets a second subroutine, and that one a body. -/
def grownTable : TypeTable :=
  { types := [{ typeWith 0 "Game" ["Main"] with
      subroutines := (typeWith 0 "Game" ["Main"]).subroutines ++ [tickWithBody] },
      typeWith 1 "Sound" []]
    names := [("Sound", 1), ("Game", 0)] }

theorem updates_keep_order_grown :
    [.add (typeWith 0 "Game" ["Main"]), .add (typeWith 1 "Sound" []),
      .replaceType (typeWith 0 "Game" ["Main", "Tick"]),
      .replaceSubroutine tickWithBody].foldlM TypeTable.apply {} = .ok grownTable ∧
    grownTable.lookup? "Sound" = some (typeWith 1 "Sound" []) ∧
    (∃ error, grownTable.add (typeWith 2 "Game" []) = .error error) ∧
    (∃ error, grownTable.replaceType (typeWith 1 "Game" []) = .error error) ∧
    ∃ after, grownTable.add (typeWith 2 "Score" []) = .ok after ∧
      after.types = grownTable.types ++ [typeWith 2 "Score" []] := by
  have made : [.add (typeWith 0 "Game" ["Main"]), .add (typeWith 1 "Sound" []),
      .replaceType (typeWith 0 "Game" ["Main", "Tick"]),
      .replaceSubroutine tickWithBody].foldlM TypeTable.apply {} = .ok grownTable := rfl
  obtain ⟨-, -, -, looked, -, next⟩ := updates_keep_order made
  refine ⟨made, (looked _ _).mpr ⟨1, rfl, rfl⟩, (next (.add (typeWith 2 "Game" []))).1.mpr ?_,
    (next (.replaceType (typeWith 1 "Game" []))).1.mpr ?_, _, rfl,
    (next (.add (typeWith 2 "Score" []))).2 _ rfl⟩
  · exact .inl ⟨_, List.mem_cons_self, rfl⟩
  · rintro ⟨present, found, same⟩
    obtain rfl := Option.some.inj found
    revert same
    decide

end TypeTable

end Cartridge.Program
