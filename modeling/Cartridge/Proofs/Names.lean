import Cartridge.Proofs.Labels

/-!
The grammar of the names that the compiler makes up.

A made-up name is the label of a subroutine with a mark behind it, and each copy of a body appends
the label of where it was copied to with a mark of its own. Parts are joined by low lines, which
labels may contain too, so a name is read as the row of words between its low lines. Reading goes
from the left: as long as no label continues another one by a mark, there is one way to tell where
a label ends.
-/

namespace Cartridge.Emit

open Asm (Symbol)

def words (symbol : Symbol) : List (List Char) :=
  symbol.toList.splitOn '_'

theorem words_append (first second : Symbol) :
    words (first ++ "_" ++ second) = words first ++ words second := by
  have joined : (first ++ "_" ++ second).toList = first.toList ++ '_' :: second.toList := by
    simp [String.toList_append]
  rw [words, joined, List.splitOn, List.splitOnP_append_cons _ _ (by simp)]
  rfl

theorem words_of_plain {symbol : Symbol} (plain : '_' ∉ symbol.toList) :
    words symbol = [symbol.toList] := by
  apply List.splitOnP_eq_singleton
  intro c member
  simpa using ne_of_mem_of_not_mem member plain

theorem words_inj {first second : Symbol} (same : words first = words second) :
    first = second := by
  have joined := congrArg ['_'].intercalate same
  simp only [words, List.intercalate_splitOn] at joined
  exact String.toList_inj.mp joined

theorem words_ne_nil (symbol : Symbol) : words symbol ≠ [] :=
  List.splitOnP_ne_nil _ _

inductive Mark where
  | parameter (n : Nat)
  | localSlot (n : Nat)
  | instruction (index : Nat)
  | numbered (stem : String) (n : Nat)
  /-- The end of a copy. -/
  | behind (n : Nat)
  /-- The place of a copy. -/
  | inlined (n : Nat)
  deriving DecidableEq

namespace Mark

def render : Mark → String
  | .parameter n => "P" ++ Text.decimal n
  | .localSlot n => "L" ++ Text.decimal n
  | .instruction index => "IL" ++ "_" ++ Text.paddedDecimal 4 index
  | .numbered stem n => stem ++ "_" ++ Text.decimal n
  | .behind n => "Inline" ++ "_" ++ Text.decimal n ++ "_" ++ "End"
  | .inlined n => "Inline" ++ "_" ++ Text.decimal n

def stems : List String :=
  ["CgtFalse", "CgtTrue", "CgtEnd", "CeqFalse", "CeqTrue", "CeqEnd", "CltFalse", "CltTrue",
    "CltEnd", "Data"]

def Legal : Mark → Prop
  | .numbered stem _ => stem ∈ stems
  | _ => True

theorem legal_inlined (n : Nat) : (inlined n).Legal := trivial

def isInlined : Mark → Bool
  | .inlined _ => true
  | _ => false

def isSlot : Mark → Bool
  | .parameter _ => true
  | .localSlot _ => true
  | _ => false

def parts : Mark → List (List Char)
  | .parameter n => ['P' :: Nat.toDigits 10 n]
  | .localSlot n => ['L' :: Nat.toDigits 10 n]
  | .instruction index => ["IL".toList, Text.padZeros 4 (Nat.toDigits 10 index)]
  | .numbered stem n => [stem.toList, Nat.toDigits 10 n]
  | .behind n => ["Inline".toList, Nat.toDigits 10 n, "End".toList]
  | .inlined n => ["Inline".toList, Nat.toDigits 10 n]

end Mark

def isNumber (word : List Char) : Bool :=
  !word.isEmpty && word.all Char.isDigit

def isSlotWord : List Char → Bool
  | 'P' :: rest => isNumber rest
  | 'L' :: rest => isNumber rest
  | _ => false

def isKindWord (word : List Char) : Bool :=
  word == "IL".toList || word == "Inline".toList || Mark.stems.any fun stem => stem.toList == word

def startsMark : List (List Char) → Bool
  | [] => false
  | word :: rest => isSlotWord word || isKindWord word && rest.head?.any isNumber

/-- Whether a name goes on with a mark where a label ends. -/
def continues (label name : Symbol) : Bool :=
  (words label).isPrefixOf (words name) && startsMark ((words name).drop (words label).length)

theorem continues_of_words {label name : Symbol} {rest : List (List Char)}
    (split : words name = words label ++ rest) (marked : startsMark rest = true) :
    continues label name = true := by
  rw [continues, split, List.drop_left, marked, Bool.and_true]
  exact List.isPrefixOf_iff_prefix.mpr (List.prefix_append _ _)

/-- A name that no mark starts in is no continuation. -/
theorem continues_of_tails {label name : Symbol} (continued : continues label name = true) :
    ∃ rest, rest <:+ words name ∧ startsMark rest = true :=
  ⟨_, List.drop_suffix _ _, (Bool.and_eq_true_iff.mp continued).2⟩

theorem isNumber_toDigits (n : Nat) : isNumber (Nat.toDigits 10 n) = true := by
  have filled : (Nat.toDigits 10 n).isEmpty = false := by
    simp
  rw [isNumber, filled, Bool.not_false, Bool.true_and, List.all_eq_true]
  exact fun c member => Nat.isDigit_of_mem_toDigits (by decide) (by decide) member

theorem isNumber_padZeros (width n : Nat) :
    isNumber (Text.padZeros width (Nat.toDigits 10 n)) = true := by
  have digits := isNumber_toDigits n
  simp only [isNumber, Bool.and_eq_true, Bool.not_eq_true', List.isEmpty_eq_false_iff,
    List.all_eq_true] at digits ⊢
  refine ⟨by simp [Text.padZeros, digits.1], fun c member => ?_⟩
  rcases List.mem_append.mp member with zero | digit
  · rw [List.eq_of_mem_replicate zero]
    rfl
  · exact digits.2 c digit

namespace Mark

variable {first second mark : Mark} {rest more row : List (List Char)}

theorem isKindWord_stem {stem : String} (member : stem ∈ stems) :
    isKindWord stem.toList = true := by
  simp only [isKindWord, Bool.or_eq_true, List.any_eq_true]
  exact .inr ⟨stem, member, beq_self_eq_true _⟩

/-- The first word of a mark either tells that it is one, or does with the number behind it. -/
theorem parts_cases (legal : mark.Legal) :
    (∃ word, mark.parts = [word] ∧ isSlotWord word = true) ∨
      ∃ word number rest, mark.parts = word :: number :: rest ∧ isKindWord word = true ∧
        isNumber number = true := by
  cases mark with
  | parameter n => exact .inl ⟨_, rfl, isNumber_toDigits n⟩
  | localSlot n => exact .inl ⟨_, rfl, isNumber_toDigits n⟩
  | instruction n => exact .inr ⟨_, _, _, rfl, rfl, isNumber_padZeros 4 n⟩
  | numbered stem n => exact .inr ⟨_, _, _, rfl, isKindWord_stem legal, isNumber_toDigits n⟩
  | behind n => exact .inr ⟨_, _, _, rfl, rfl, isNumber_toDigits n⟩
  | inlined n => exact .inr ⟨_, _, _, rfl, rfl, isNumber_toDigits n⟩

theorem isNumber_of_isSlotWord {word : List Char} (slot : isSlotWord word = true) :
    isNumber word = false := by
  unfold isSlotWord at slot
  split at slot <;> simp_all [isNumber, Char.isDigit]

theorem isNumber_of_isKindWord {word : List Char} (kind : isKindWord word = true) :
    isNumber word = false := by
  have known : ∀ stem ∈ stems, isNumber stem.toList = false := by decide
  simp only [isKindWord, Bool.or_eq_true, List.any_eq_true, beq_iff_eq] at kind
  rcases kind with (rfl | rfl) | ⟨stem, member, rfl⟩
  · decide
  · decide
  · exact known stem member

theorem startsMark_parts (legal : mark.Legal) (rest : List (List Char)) :
    startsMark (mark.parts ++ rest) = true := by
  rcases parts_cases legal with ⟨word, parts, slot⟩ | ⟨word, number, tail, parts, kind, isNumber⟩
  · simp [parts, startsMark, slot]
  · simp [parts, startsMark, kind, isNumber]

/-- Words in front of a mark that are read as a mark are one. -/
theorem startsMark_of_overlap (legal : first.Legal) (legalNext : second.Legal) (filled : row ≠ [])
    (same : first.parts ++ rest = row ++ (second.parts ++ more)) : startsMark row = true := by
  obtain ⟨word, words, rfl⟩ := List.exists_cons_of_ne_nil filled
  rcases parts_cases legal with ⟨head, parts, slot⟩ | ⟨head, number, tail, parts, kind, numeric⟩
  · rw [parts] at same
    obtain ⟨rfl, -⟩ := List.cons.inj same
    simp [startsMark, slot]
  · rw [parts] at same
    obtain ⟨rfl, behind⟩ := List.cons.inj same
    cases words with
    | cons next words =>
      obtain ⟨rfl, -⟩ := List.cons.inj behind
      simp [startsMark, kind, numeric]
    | nil =>
      -- The number would be where the next mark starts.
      have notNumber : isNumber number = false := by
        rcases parts_cases legalNext with ⟨start, partsNext, slotNext⟩ |
          ⟨start, _, _, partsNext, kindNext, -⟩ <;> rw [partsNext] at behind
        · obtain ⟨rfl, -⟩ := List.cons.inj behind
          exact isNumber_of_isSlotWord slotNext
        · obtain ⟨rfl, -⟩ := List.cons.inj behind
          exact isNumber_of_isKindWord kindNext
      rw [numeric] at notNumber
      contradiction

/-- Reads a mark back from the front of words. The flag tells the place of a copy from its end. -/
def read (place : Bool) : List (List Char) → Option (Mark × List (List Char))
  | ('P' :: digits) :: rest => some (.parameter (Nat.ofDigitChars 10 digits 0), rest)
  | ('L' :: digits) :: rest => some (.localSlot (Nat.ofDigitChars 10 digits 0), rest)
  | word :: digits :: rest =>
    let n := Nat.ofDigitChars 10 digits 0
    if word = "IL".toList then some (.instruction n, rest)
    else if word = "Inline".toList then
      if place then some (.inlined n, rest) else some (.behind n, rest.tail)
    else some (.numbered (String.ofList word) n, rest)
  | _ => none

theorem read_parts (legal : mark.Legal) :
    read mark.isInlined (mark.parts ++ rest) = some (mark, rest) := by
  have numbered : ∀ stem ∈ stems, ∀ digits more, read false (stem.toList :: digits :: more) =
      some (.numbered stem (Nat.ofDigitChars 10 digits 0), more) := by
    intro stem member digits more
    simp only [stems, List.mem_cons, List.not_mem_nil, or_false] at member
    rcases member with rfl | rfl | rfl | rfl | rfl | rfl | rfl | rfl | rfl | rfl <;> rfl
  cases mark with
  | parameter n => simp [read, parts, Nat.ofDigitChars_ten_toDigits]
  | localSlot n => simp [read, parts, Nat.ofDigitChars_ten_toDigits]
  | instruction n => simp [read, parts, ofDigitChars_padZeros, Nat.ofDigitChars_ten_toDigits]
  | numbered stem n =>
    have back := numbered stem legal (Nat.toDigits 10 n) rest
    rwa [Nat.ofDigitChars_ten_toDigits] at back
  | behind n => simp [read, parts, isInlined, Nat.ofDigitChars_ten_toDigits]
  | inlined n => simp [read, parts, isInlined, Nat.ofDigitChars_ten_toDigits]

/-- Marks that end in the same way are told apart wherever they are followed by more. -/
theorem parts_inj (legal : first.Legal) (legalSecond : second.Legal)
    (kind : first.isInlined = second.isInlined)
    (same : first.parts ++ rest = second.parts ++ more) : first = second ∧ rest = more := by
  have read : some (first, rest) = some (second, more) := by
    rw [← read_parts legal, ← read_parts legalSecond, kind, same]
  exact Prod.mk.inj (Option.some.inj read)

end Mark

/-- A name that the compiler makes up: what it marks in which subroutine, and then where it was
copied to, first to last. -/
structure Name where
  owner : Symbol
  mark : Mark
  copies : List (Symbol × Nat) := []
  deriving DecidableEq

namespace Name

def renderCopy (name : Symbol) (copy : Symbol × Nat) : Symbol :=
  name ++ "_" ++ (copy.1 ++ "_" ++ (Mark.inlined copy.2).render)

def render (name : Name) : Symbol :=
  name.copies.foldl renderCopy (name.owner ++ "_" ++ name.mark.render)

/-- The subroutine whose body the name is defined in. -/
def host (name : Name) : Symbol :=
  (name.copies.getLast?.map Prod.fst).getD name.owner

def copy (place : Symbol × Nat) (name : Name) : Name :=
  { name with copies := name.copies ++ [place] }

structure Over (labels : List Symbol) (name : Name) : Prop where
  owner : name.owner ∈ labels
  legal : name.mark.Legal
  own : name.mark.isInlined = false
  copies : ∀ copy ∈ name.copies, copy.1 ∈ labels

end Name

theorem words_decimal (n : Nat) : words (Text.decimal n) = [Nat.toDigits 10 n] := by
  rw [words_of_plain] <;> simp [Text.decimal, Nat.underscore_not_in_toDigits]

theorem underscore_not_in_padZeros (width n : Nat) :
    '_' ∉ Text.padZeros width (Nat.toDigits 10 n) := by
  simp [Text.padZeros, Nat.underscore_not_in_toDigits]

theorem Mark.words_render {mark : Mark} (legal : mark.Legal) : words mark.render = mark.parts := by
  have plain : ∀ stem ∈ Mark.stems, words stem = [stem.toList] := by decide
  cases mark with
  | parameter n =>
    rw [words_of_plain] <;> simp [render, parts, Text.decimal, Nat.underscore_not_in_toDigits]
  | localSlot n =>
    rw [words_of_plain] <;> simp [render, parts, Text.decimal, Nat.underscore_not_in_toDigits]
  | instruction n =>
    have digits : words (Text.paddedDecimal 4 n) = [Text.padZeros 4 (Nat.toDigits 10 n)] := by
      rw [words_of_plain] <;> simp [Text.paddedDecimal, underscore_not_in_padZeros]
    rw [render, words_append, digits]
    rfl
  | numbered stem n =>
    rw [render, words_append, words_decimal, plain stem legal]
    rfl
  | behind n =>
    rw [render, words_append, words_append, words_decimal]
    rfl
  | inlined n =>
    rw [render, words_append, words_decimal]
    rfl

namespace Name

variable {name first second : Name} {labels : List Symbol}

def copyParts (copies : List (Symbol × Nat)) : List (List Char) :=
  copies.flatMap fun copy => words copy.1 ++ (Mark.inlined copy.2).parts

theorem words_renderCopy (base : Symbol) (copies : List (Symbol × Nat)) :
    words (copies.foldl renderCopy base) = words base ++ copyParts copies := by
  induction copies generalizing base with
  | nil => simp [copyParts]
  | cons copy copies ih =>
    rw [List.foldl_cons, ih, renderCopy, words_append, words_append,
      Mark.words_render (Mark.legal_inlined _), List.append_assoc]
    rfl

theorem words_render (based : name.Over labels) :
    words name.render = words name.owner ++ (name.mark.parts ++ copyParts name.copies) := by
  rw [render, words_renderCopy, words_append, Mark.words_render based.legal, List.append_assoc]

theorem continues_render (based : name.Over labels) : continues name.owner name.render = true :=
  continues_of_words (words_render based) (Mark.startsMark_parts based.legal _)

section Injective

variable (apart : ∀ label ∈ labels, ∀ other ∈ labels, continues label other = false)
include apart

theorem eq_nil_of_longer {label other : Symbol} {mark next : Mark}
    {between rest more : List (List Char)} (known : label ∈ labels) (knownOther : other ∈ labels)
    (legal : mark.Legal) (legalNext : next.Legal) (longer : words other = words label ++ between)
    (same : mark.parts ++ rest = between ++ (next.parts ++ more)) : between = [] := by
  by_contra filled
  have marked := Mark.startsMark_of_overlap legal legalNext filled same
  have continued := continues_of_words longer marked
  rw [apart label known other knownOther] at continued
  contradiction

/-- Where no label continues another, it is clear where a label in front of a mark ends. -/
theorem label_inj {label other : Symbol} {mark next : Mark} {rest more : List (List Char)}
    (known : label ∈ labels) (knownOther : other ∈ labels) (legal : mark.Legal)
    (legalNext : next.Legal)
    (same : words label ++ (mark.parts ++ rest) = words other ++ (next.parts ++ more)) :
    label = other ∧ mark.parts ++ rest = next.parts ++ more := by
  rcases List.append_eq_append_iff.mp same with
    ⟨between, longer, behind⟩ | ⟨between, longer, behind⟩
  · obtain rfl := eq_nil_of_longer apart known knownOther legal legalNext longer behind
    exact ⟨words_inj (by rw [longer, List.append_nil]), behind⟩
  · obtain rfl := eq_nil_of_longer apart knownOther known legalNext legal longer behind
    exact ⟨words_inj (by rw [longer, List.append_nil]), behind.symm⟩

theorem copyParts_inj {copies others : List (Symbol × Nat)}
    (known : ∀ copy ∈ copies, copy.1 ∈ labels) (knownOthers : ∀ copy ∈ others, copy.1 ∈ labels)
    (same : copyParts copies = copyParts others) : copies = others := by
  induction copies generalizing others with
  | nil =>
    cases others with
    | nil => rfl
    | cons other others => simp [copyParts, words_ne_nil] at same
  | cons copy copies ih =>
    cases others with
    | nil => simp [copyParts, words_ne_nil] at same
    | cons other others =>
      simp only [copyParts, List.flatMap_cons, List.append_assoc] at same
      obtain ⟨sameLabel, rest⟩ := label_inj apart (known copy List.mem_cons_self)
        (knownOthers other List.mem_cons_self) (Mark.legal_inlined _) (Mark.legal_inlined _) same
      obtain ⟨sameMark, more⟩ := Mark.parts_inj (Mark.legal_inlined copy.2)
        (Mark.legal_inlined other.2) rfl rest
      obtain rfl : copy = other := Prod.ext sameLabel (Mark.inlined.inj sameMark)
      rw [ih (fun copy member => known copy (List.mem_cons_of_mem _ member))
        (fun copy member => knownOthers copy (List.mem_cons_of_mem _ member)) more]

theorem render_inj (based : first.Over labels) (basedSecond : second.Over labels)
    (same : first.render = second.render) : first = second := by
  have read := congrArg words same
  rw [words_render based, words_render basedSecond] at read
  obtain ⟨owner, marks⟩ := label_inj apart based.owner basedSecond.owner based.legal
    basedSecond.legal read
  obtain ⟨mark, copies⟩ := Mark.parts_inj based.legal basedSecond.legal
    (by rw [based.own, basedSecond.own]) marks
  have copied := copyParts_inj apart based.copies basedSecond.copies copies
  obtain ⟨_, _, _⟩ := first
  obtain ⟨_, _, _⟩ := second
  simp_all

end Injective

end Name

end Cartridge.Emit
