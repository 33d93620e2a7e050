import Mathlib.Data.List.Induction
import Mathlib.Data.List.Nodup

/-!
Entries of a list that are looked up by a key.

If no two entries share a key, look-up finds every entry under its own. Otherwise some entry is the
first to repeat the key of an earlier one. Keys that tell the place of an entry are distinct.
-/

namespace Cartridge

variable {α β : Type} [BEq β] [LawfulBEq β] {key : α → β} {entries : List α} {entry : α}
  {sought : β}

theorem mem_of_find?_key (found : entries.find? (key · == sought) = some entry) :
    entry ∈ entries ∧ key entry = sought :=
  ⟨List.mem_of_find?_eq_some found, by simpa using List.find?_some found⟩

theorem find?_key_eq_none : entries.find? (key · == sought) = none ↔ sought ∉ entries.map key := by
  simp

theorem find?_key_eq_some (distinct : (entries.map key).Nodup) :
    entries.find? (key · == sought) = some entry ↔ entry ∈ entries ∧ key entry = sought := by
  refine ⟨mem_of_find?_key, ?_⟩
  rintro ⟨member, rfl⟩
  cases first : entries.find? (key · == key entry) with
  | none => exact absurd (List.mem_map_of_mem member) (find?_key_eq_none.mp first)
  | some found =>
    obtain ⟨inside, same⟩ := mem_of_find?_key first
    rw [List.inj_on_of_nodup_map distinct inside member same]

theorem exists_first_repeated (repeated : ¬(entries.map key).Nodup) :
    ∃ before again after, entries = before ++ again :: after ∧ (before.map key).Nodup ∧
      key again ∈ before.map key := by
  -- From the end, since the entries before the last one may be distinct.
  induction entries using List.reverseRecOn with
  | nil => exact absurd List.nodup_nil repeated
  | append_singleton earlier last ih =>
    by_cases distinct : (earlier.map key).Nodup
    · refine ⟨earlier, last, [], rfl, distinct, ?_⟩
      by_contra fresh
      rw [List.map_append, List.map_singleton, ← List.concat_eq_append] at repeated
      exact repeated (distinct.concat fresh)
    · obtain ⟨before, again, after, rfl, rest⟩ := ih distinct
      exact ⟨before, again, after ++ [last], by simp, rest⟩

/-- Entries of groups, each with a key that tells its group and its place in that. -/
theorem nodup_keys_of_places {γ δ : Type} {groups : List γ} {members : γ → List α} {key : α → δ}
    (place : δ → Nat × Nat)
    (placed : ∀ owner group index entry, groups[owner]? = some group →
      (members group)[index]? = some entry → place (key entry) = (owner, index)) :
    ((groups.flatMap members).map key).Nodup := by
  rw [List.map_flatMap, List.nodup_flatMap]
  constructor
  · intro group listed
    obtain ⟨owner, found⟩ := List.getElem?_of_mem listed
    rw [List.nodup_iff_pairwise_ne, List.pairwise_map, List.pairwise_iff_getElem]
    intro first second inside insideToo before same
    have here := placed owner group first _ found (List.getElem?_eq_getElem inside)
    have there := placed owner group second _ found (List.getElem?_eq_getElem insideToo)
    rw [same, there] at here
    exact absurd (Prod.mk.inj here).2 (Nat.ne_of_gt before)
  · rw [List.pairwise_iff_getElem]
    intro first second inside insideToo before shared inFirst inSecond
    obtain ⟨entry, member, rfl⟩ := List.mem_map.mp inFirst
    obtain ⟨other, memberToo, same⟩ := List.mem_map.mp inSecond
    obtain ⟨index, found⟩ := List.getElem?_of_mem member
    obtain ⟨indexToo, foundToo⟩ := List.getElem?_of_mem memberToo
    have here := placed first _ index entry (List.getElem?_eq_getElem inside) found
    have there := placed second _ indexToo other (List.getElem?_eq_getElem insideToo) foundToo
    rw [← same, there] at here
    exact absurd (Prod.mk.inj here).1 (Nat.ne_of_gt before)

end Cartridge
