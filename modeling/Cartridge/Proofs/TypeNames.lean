import Cartridge.Proofs.Cuts
import Cartridge.Proofs.TypeMeaning

/-!
The names under which types are printed.

A type is printed as the shortest reference to it. Names of types are arbitrary, and one may look
like a marked reference, so not every reference can be read back from its shortest text: a pointer
without a mark to something whose text starts with one cannot. Reading never yields such a pointer,
because it takes a mark in front for that of the outermost pointer. What is read is therefore told
by its name.
-/

namespace Cartridge

namespace TypeReference

open Text (Trimmed before? before?_eq_some isBlank trim trim_prefix_of_front trimmed_append
  trimmed_trim)

theorem splitMark_append (rest : List Char) : splitMark (zeroPageMark ++ rest) = (rest, true) := by
  apply if_pos
  rfl

theorem splitMark_of_unmarked {text : List Char} (unmarked : ¬zeroPageMark <+: text) :
    splitMark text = (text, false) := by
  apply if_neg
  intro marked
  apply unmarked
  rw [← marked]
  exact List.take_prefix 4 text

theorem read_eq_pointer {text front : List Char} (found : before? ['*'] (trim text) = some front) :
    read text = .pointer (read (splitMark front).1) (splitMark front).2 := by
  rw [read]
  split
  next other again =>
    rw [found] at again
    rw [Option.some.inj again]
  next missing =>
    rw [found] at missing
    contradiction

theorem read_eq_named {text : List Char} (missing : before? ['*'] (trim text) = none) :
    read text = .named (String.ofList (trim text)) := by
  rw [read]
  split
  next front found =>
    rw [found] at missing
    contradiction
  next => rfl

/-- The shortest text of a reference. -/
def write : TypeReference → List Char
  | .named name => name.toList
  | .pointer target true => zeroPageMark ++ (target.write ++ ['*'])
  | .pointer target false => target.write ++ ['*']

/-- References that are read back from their shortest text. -/
inductive Readable : TypeReference → Prop
  | named {name : String} (trimmed : Trimmed name.toList)
    (plain : before? ['*'] name.toList = none) : Readable (.named name)
  | marked {target : TypeReference} (readable : Readable target) : Readable (.pointer target true)
  | unmarked {target : TypeReference} (readable : Readable target)
    (apart : ¬zeroPageMark <+: target.write) : Readable (.pointer target false)

theorem trimmed_star : Trimmed ['*'] :=
  Text.trimmed_iff.mpr rfl

namespace Readable

variable {reference : TypeReference}

theorem trimmed (readable : Readable reference) : Trimmed reference.write := by
  induction readable with
  | named trimmed plain => exact trimmed
  | @marked target readable ih =>
    apply trimmed_append _ (by simp [zeroPageMark]) _ trimmed_star (by simp)
    exact Text.trimmed_iff.mpr rfl
  | @unmarked target readable apart ih =>
    rw [write]
    by_cases empty : target.write = []
    · rw [empty]
      exact trimmed_star
    · exact trimmed_append ih empty [] trimmed_star (by simp)

theorem read_write (readable : Readable reference) : read reference.write = reference := by
  induction readable with
  | @named name trimmed plain =>
    rw [write, read_eq_named (by rwa [trimmed.trim_eq]), trimmed.trim_eq, String.ofList_toList]
  | @marked target readable ih =>
    have cut : before? ['*'] (trim (write (.pointer target true))) =
        some (zeroPageMark ++ target.write) := by
      rw [readable.marked.trimmed.trim_eq, before?_eq_some]
      exact ⟨['*'], (List.append_assoc _ _ _).symm, rfl⟩
    rw [read_eq_pointer cut, splitMark_append, ih]
  | @unmarked target readable apart ih =>
    have cut : before? ['*'] (trim (write (.pointer target false))) = some target.write := by
      rw [(readable.unmarked apart).trimmed.trim_eq, before?_eq_some]
      exact ⟨['*'], rfl, rfl⟩
    rw [read_eq_pointer cut, splitMark_of_unmarked apart, ih]

end Readable

theorem trim_of_before? {text front : List Char} (found : before? ['*'] (trim text) = some front) :
    trim text = front ++ ['*'] := by
  obtain ⟨tail, joined, closing⟩ := before?_eq_some.mp found
  rw [Text.upper, List.map_eq_singleton_iff] at closing
  obtain ⟨c, rfl, upper⟩ := closing
  rw [joined, Text.eq_of_toUpper_eq upper rfl]

theorem head?_of_before? {text front : List Char} (found : before? ['*'] (trim text) = some front) :
    ∀ c ∈ front.head?, isBlank c = false := by
  intro c first
  apply (trimmed_trim text).front
  rw [trim_of_before? found, List.head?_append, Option.mem_def.mp first]
  rfl

/-- A mark in front of what is written was in front of what was read. -/
theorem prefix_of_prefix_write {text : List Char} (starts : ∀ c ∈ text.head?, isBlank c = false)
    (marked : zeroPageMark <+: (read text).write) : zeroPageMark <+: text := by
  fun_induction read text with
  | case1 text front found ih =>
    have whole : front ++ ['*'] <+: text := by
      rw [← trim_of_before? found]
      exact trim_prefix_of_front starts
    by_cases already : zeroPageMark <+: front
    · exact already.trans ((List.prefix_append _ _).trans whole)
    · rw [splitMark_of_unmarked already] at ih marked
      rw [write, List.prefix_concat_iff] at marked
      rcases marked with star | inside
      · have last := congrArg List.getLast? star
        simp [zeroPageMark] at last
      · exact absurd (ih (head?_of_before? found) inside) already
  | case2 text missing =>
    rw [write, String.toList_ofList] at marked
    exact marked.trans (trim_prefix_of_front starts)

theorem readable_read (text : List Char) : Readable (read text) := by
  fun_induction read text with
  | case1 text front found ih =>
    by_cases marked : zeroPageMark <+: front
    · obtain ⟨rest, rfl⟩ := marked
      rw [splitMark_append] at ih ⊢
      exact .marked ih
    · rw [splitMark_of_unmarked marked] at ih ⊢
      refine .unmarked ih fun inside => ?_
      exact marked (prefix_of_prefix_write (head?_of_before? found) inside)
  | case2 text missing =>
    apply Readable.named
    · rw [String.toList_ofList]
      exact trimmed_trim text
    · rwa [String.toList_ofList]

end TypeReference

namespace Program

/-- What a reference means is printed as the shortest text of the reference. -/
theorem name_of_denotes {origins : List Origin} {reference : TypeReference} {value : ValueType}
    (means : Denotes (typeNamed? origins) reference value) :
    value.name.toList = reference.write := by
  induction means with
  | builtin found => exact congrArg String.toList (mem_of_find?_key found).2
  | declared found based typed => exact congrArg String.toList (mem_of_find?_key found).2
  | @pointer target value zeroPage points ih =>
    cases zeroPage with
    | true =>
      rw [ValueType.name, TypeReference.write, String.toList_append, String.toList_append, ih,
        List.append_assoc]
      rfl
    | false =>
      rw [ValueType.name, TypeReference.write, String.toList_append, ih]
      rfl

theorem Scope.Meaningful.valueType_name {scope : Scope} (meaningful : scope.Meaningful)
    {reference : String} {value : ValueType} (resolved : scope.valueType reference = .ok value) :
    scope.valueType value.name = .ok value := by
  have means := meaningful.valueType_eq_ok.mp resolved
  apply meaningful.valueType_eq_ok.mpr
  rw [name_of_denotes means, (TypeReference.readable_read _).read_write]
  exact means

/-- In every module whose types can be resolved, the name of what a reference resolves to resolves
to the same again. Hence references to different types never print the same name. -/
theorem valueType_names_itself {module : Source.Module} {scope : Scope}
    (made : Scope.ofModule module = .ok scope) {reference : String} {value : ValueType}
    (resolved : scope.valueType reference = .ok value) :
    scope.valueType value.name = .ok value ∧
      ∀ other result, scope.valueType other = .ok result → result ≠ value →
        result.name ≠ value.name := by
  have meaningful := (Scope.ofModule_eq_ok_iff.mp made).2
  have again := meaningful.valueType_name resolved
  refine ⟨again, ?_⟩
  intro other result resolvedOther differ same
  have againOther := meaningful.valueType_name resolvedOther
  rw [same, again] at againOther
  exact differ (Except.ok.inj againOther).symm

/-- Two rows, one of them under a name that looks like a marked reference to the other. -/
def rows : Source.Module :=
  { types :=
      [{ name := "Row", fields := [{ name := "Left", type := "byte" }] },
       { name := "\x7bzp\x7dRow", fields := [{ name := "Next", type := " \x7bzp\x7d Row *" }] }] }

/-- Behind a blank, a mark belongs to the name. -/
theorem valueType_names_itself_rows :
    ∃ scope value other, Scope.ofModule rows = .ok scope ∧
      scope.valueType " \x7bzp\x7d \x7bzp\x7dRow *" = .ok value ∧
      value.name = "\x7bzp\x7d\x7bzp\x7dRow*" ∧
      scope.valueType "\x7bzp\x7d\x7bzp\x7dRow*" = .ok value ∧
      scope.valueType "Row\t*" = .ok other ∧ other.name ≠ value.name := by
  have passed : (Scope.ofModule rows).toOption.any (fun scope =>
      (scope.valueType " \x7bzp\x7d \x7bzp\x7dRow *").toOption.any (fun value =>
        value.size == 1 && value.name == "\x7bzp\x7d\x7bzp\x7dRow*") &&
      (scope.valueType "Row\t*").toOption.any fun other => other.size == 2) = true := by
    decide +kernel
  obtain ⟨scope, made, facts⟩ := exists_of_any passed
  rw [Bool.and_eq_true] at facts
  obtain ⟨value, resolved, one⟩ := exists_of_any facts.1
  obtain ⟨other, resolvedOther, two⟩ := exists_of_any facts.2
  rw [Bool.and_eq_true, beq_iff_eq, beq_iff_eq] at one
  have differ : other ≠ value := by
    intro same
    rw [same, one.1] at two
    contradiction
  obtain ⟨again, apart⟩ := valueType_names_itself made resolved
  rw [one.2] at again
  exact ⟨scope, value, other, made, resolved, one.2, again, resolvedOther,
    apart _ other resolvedOther differ⟩

end Program

end Cartridge
