import Cartridge.Text.Blank
import Cartridge.Text.Cut
import Mathlib.Data.List.Basic
import Mathlib.Data.List.TakeWhile

/-!
What the cuts of a text leave.

A text that starts and ends with no blank is left alone by trimming, and trimming always yields such
a text. A cut at a blank or at a marker finds the place where the parts were put together, provided
that the part in front does not contain it.
-/

namespace Cartridge.Text

structure Trimmed (text : List Char) : Prop where
  front : ∀ c ∈ text.head?, isBlank c = false
  back : ∀ c ∈ text.getLast?, isBlank c = false

def Solid (text : List Char) : Prop :=
  ∀ c ∈ text, isBlank c = false

instance : DecidablePred Solid :=
  fun text => List.decidableBAll (isBlank · = false) text

section Trimming

variable {text front back : List Char}

theorem dropWhile_isBlank (front : ∀ c ∈ text.head?, isBlank c = false) :
    text.dropWhile isBlank = text := by
  cases text with
  | nil => rfl
  | cons first rest =>
    have kept := front first rfl
    rw [List.dropWhile_cons_of_neg]
    simp [kept]

theorem Trimmed.trim_eq (trimmed : Trimmed text) : trim text = text := by
  have atEnd : ∀ c ∈ text.reverse.head?, isBlank c = false := by
    rw [List.head?_reverse]
    exact trimmed.back
  rw [trim, trimLeft, dropWhile_isBlank trimmed.front, trimRight, dropWhile_isBlank atEnd,
    List.reverse_reverse]

theorem not_isBlank_of_head?_dropWhile {c : Char}
    (first : c ∈ (text.dropWhile isBlank).head?) : isBlank c = false := by
  have kept := List.head?_dropWhile_not isBlank text
  rw [Option.mem_def.mp first] at kept
  simpa using kept

theorem trim_prefix_trimLeft (text : List Char) : trim text <+: trimLeft text := by
  rw [trim, trimRight, ← List.reverse_suffix, List.reverse_reverse]
  exact List.dropWhile_suffix isBlank

theorem trim_prefix_of_front (front : ∀ c ∈ text.head?, isBlank c = false) :
    trim text <+: text := by
  have whole := trim_prefix_trimLeft text
  rwa [trimLeft, dropWhile_isBlank front] at whole

theorem trimmed_trim (text : List Char) : Trimmed (trim text) := by
  have whole := trim_prefix_trimLeft text
  refine ⟨?_, ?_⟩
  · intro c first
    have same : (trimLeft text).head? = some c := by
      obtain ⟨rest, joined⟩ := whole
      rw [← joined, List.head?_append, Option.mem_def.mp first]
      rfl
    exact not_isBlank_of_head?_dropWhile (Option.mem_def.mpr same)
  · intro c last
    rw [trim, trimRight, List.getLast?_reverse] at last
    exact not_isBlank_of_head?_dropWhile last

theorem trimmed_iff : Trimmed text ↔ trim text = text := by
  refine ⟨Trimmed.trim_eq, fun same => ?_⟩
  rw [← same]
  exact trimmed_trim text

theorem trim_trim (text : List Char) : trim (trim text) = trim text :=
  (trimmed_trim text).trim_eq

theorem Solid.trimmed (solid : Solid text) : Trimmed text := by
  refine ⟨?_, ?_⟩
  · intro c first
    exact solid c (List.mem_of_head? first)
  · intro c last
    exact solid c (List.mem_of_getLast? last)

/-- Blanks inside do no harm. -/
theorem trimmed_append (starts : Trimmed front) (present : front ≠ []) (middle : List Char)
    (stops : Trimmed back) (ends : back ≠ []) : Trimmed (front ++ (middle ++ back)) := by
  refine ⟨?_, ?_⟩
  · intro c first
    rw [List.head?_append_of_ne_nil front present] at first
    exact starts.front c first
  · intro c last
    rw [List.getLast?_append_of_ne_nil front (List.append_ne_nil_of_right_ne_nil middle ends),
      List.getLast?_append_of_ne_nil middle ends] at last
    exact stops.back c last

theorem trim_append (blank : ∀ c ∈ front, isBlank c = true) (text : List Char) :
    trim (front ++ text) = trim text := by
  rw [trim, trimLeft, List.dropWhile_append_of_pos blank, trim, trimLeft]

end Trimming

section Words

variable {word : List Char}

theorem firstWord_append (solid : Solid word) {c : Char} (blank : isBlank c = true)
    (rest : List Char) : firstWord (word ++ c :: rest) = word := by
  have kept : ∀ d ∈ word, (!isBlank d) = true := by
    intro d member
    simp [solid d member]
  rw [firstWord, List.takeWhile_append_of_pos kept, List.takeWhile_cons_of_neg (by simp [blank]),
    List.append_nil]

theorem afterFirstWord_append (solid : Solid word) {c : Char} (blank : isBlank c = true)
    (rest : List Char) : afterFirstWord (word ++ c :: rest) = rest := by
  have kept : ∀ d ∈ word, (!isBlank d) = true := by
    intro d member
    simp [solid d member]
  rw [afterFirstWord, List.dropWhile_append_of_pos kept,
    List.dropWhile_cons_of_neg (by simp [blank]), List.drop_one, List.tail_cons]

theorem firstWord_eq_self (solid : Solid word) : firstWord word = word := by
  rw [firstWord, List.takeWhile_eq_self_iff]
  intro c member
  simp [solid c member]

theorem afterFirstWord_eq_nil (solid : Solid word) : afterFirstWord word = [] := by
  have all : (word.dropWhile fun c => !isBlank c) = [] := by
    rw [List.dropWhile_eq_nil_iff]
    intro c member
    simp [solid c member]
  rw [afterFirstWord, all, List.drop_nil]

end Words

theorem eq_of_toUpper_eq {c d : Char} (same : d.toUpper = c) (apart : c.isUpper = false) :
    d = c := by
  subst same
  revert apart
  delta Char.toUpper Char.isUpper
  split
  next lower =>
    intro apart
    simp [UInt32.le_iff_toNat_le] at lower apart
    omega
  next =>
    intro _
    rfl

theorem mem_of_mem_upper {c : Char} {text : List Char} (apart : c.isUpper = false)
    (member : c ∈ upper text) : c ∈ text := by
  obtain ⟨d, inside, same⟩ := List.mem_map.mp member
  rwa [← eq_of_toUpper_eq same apart]

theorem before?_eq_some {closing text front : List Char} :
    before? closing text = some front ↔ ∃ tail, text = front ++ tail ∧ upper tail = closing := by
  simp only [before?]
  constructor
  · intro cut
    split at cut
    next matched =>
      obtain rfl := Option.some.inj cut
      simp only [Bool.and_eq_true, beq_iff_eq] at matched
      exact ⟨_, (List.take_append_drop _ _).symm, matched.2⟩
    next => contradiction
  · intro joined
    obtain ⟨tail, rfl, rfl⟩ := joined
    simp [upper]

/-- A text that ends with other marks of the same length. -/
theorem before?_append_eq_none {closing marks : List Char} (other : upper marks ≠ closing)
    (size : marks.length = closing.length) (text : List Char) :
    before? closing (text ++ marks) = none := by
  rw [Option.eq_none_iff_forall_ne_some]
  intro front cut
  obtain ⟨tail, joined, same⟩ := before?_eq_some.mp cut
  have length : marks.length = tail.length := by
    rw [size, ← same, upper, List.length_map]
  rw [(List.append_inj' joined length).2] at other
  exact other same

theorem before?_eq_none {closing text : List Char} {c : Char} (marks : c ∈ closing)
    (apart : c.isUpper = false) (absent : c ∉ text) : before? closing text = none := by
  rw [Option.eq_none_iff_forall_ne_some]
  intro front cut
  obtain ⟨tail, rfl, rfl⟩ := before?_eq_some.mp cut
  exact absent (List.mem_append_right _ (mem_of_mem_upper apart marks))

theorem splitAtFirst?_append {mark : Char} {front : List Char} (absent : mark ∉ front)
    (back : List Char) : splitAtFirst? mark (front ++ mark :: back) = some (front, back) := by
  induction front with
  | nil => simp [splitAtFirst?]
  | cons first rest ih =>
    rw [List.mem_cons, not_or] at absent
    rw [List.cons_append, splitAtFirst?, if_neg (Ne.symm absent.1), ih absent.2]

theorem splitAtFirst?_eq_none {mark : Char} {text : List Char} (absent : mark ∉ text) :
    splitAtFirst? mark text = none := by
  induction text with
  | nil => rfl
  | cons first rest ih =>
    rw [List.mem_cons, not_or] at absent
    rw [splitAtFirst?, if_neg (Ne.symm absent.1), ih absent.2]

end Cartridge.Text
