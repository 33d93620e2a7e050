import Cartridge.Proofs.ZeroFlag

/-!
What a copy of a body consists of.

A copy has the lines of the body in their order but for a return at the end, and each of its lines
is the copy of one. Labels that a body defines are marked by the place of the copy, so that
references to them stay inside of it, and nothing else about a line changes.
-/

namespace Cartridge.Emit

open Asm
open Machine (lineOf? lineOf?_eq_some)
open Program (Body)

/-- Lines without the return that is their last instruction. -/
inductive WithoutReturn : List Line → List Line → Prop
  | trailing {front rest : List Line} {line : Line} (returns : isReturn line = true)
    (silent : ∀ other ∈ rest, other.isInstruction = false) :
    WithoutReturn (front ++ line :: rest) (front ++ rest)
  | whole {code : List Line} (busy : ∀ front line rest, code = front ++ line :: rest →
      isReturn line = true → ∃ other ∈ rest, other.isInstruction = true) : WithoutReturn code code

theorem withoutReturn_dropLastReturn (code : List Line) :
    WithoutReturn code (dropLastReturn code) := by
  rcases dropLastReturn_cases code with
    ⟨front, line, rest, rfl, returns, silent, dropped⟩ | ⟨kept, busy⟩
  · rw [dropped]
    exact .trailing returns silent
  · rw [kept]
    exact .whole busy

/-- A line and its copy at a place, with the labels that belong to the body. -/
inductive CopiedLine (own : List Symbol) (place : Symbol) : Line → Line → Prop
  | label {symbol : Symbol} (mine : symbol ∈ own) :
    CopiedLine own place (.label symbol) (.label (symbol ++ "_" ++ place))
  | returned {line : Line} (returns : isReturn line = true) :
    CopiedLine own place line (.direct .jmp (spliceEnd place))
  | inside {mnemonic : Mnemonic} {mode : Mode} {value : Value} {symbol : Symbol}
    (stays : mnemonic ≠ .rts) (refers : value.symbol? = some symbol) (mine : symbol ∈ own) :
    CopiedLine own place (.on mnemonic mode value)
      (.on mnemonic mode (value.mapSymbol fun name => name ++ "_" ++ place))
  | outside {line : Line} (stays : isReturn line = false) (unlabelled : line.label? = none)
    (foreign : ∀ symbol, line.reference? = some symbol → symbol ∉ own) :
    CopiedLine own place line line

section CopiedLine

variable {own : List Symbol} {place symbol : Symbol} {value : Value} {line : Line}

theorem renameAt_of_mem (mine : symbol ∈ own) :
    renameAt place own symbol = symbol ++ "_" ++ place :=
  if_pos (List.contains_iff_mem.mpr mine)

theorem renameAt_of_not_mem (foreign : symbol ∉ own) : renameAt place own symbol = symbol :=
  if_neg fun contained => foreign (List.contains_iff_mem.mp contained)

theorem mapSymbol_congr {first second : Symbol → Symbol}
    (same : ∀ symbol, value.symbol? = some symbol → first symbol = second symbol) :
    value.mapSymbol first = value.mapSymbol second := by
  cases value <;> simp_all [Value.mapSymbol, Value.symbol?]

theorem mapSymbol_id : value.mapSymbol (fun symbol => symbol) = value := by
  cases value <;> rfl

theorem copiedLine_relabel (plain : line.isPlain = true) (stays : isReturn line = false)
    (labelled : ∀ symbol, line.label? = some symbol → symbol ∈ own) :
    CopiedLine own place line (relabel (renameAt place own) line) := by
  cases line with
  | label symbol =>
    have mine := labelled symbol rfl
    rw [relabel, renameAt_of_mem mine]
    exact .label mine
  | instruction instruction =>
    obtain ⟨mnemonic, operand⟩ := instruction
    cases operand with
    | implied => exact .outside stays rfl nofun
    | addressed mode value =>
      cases refers : value.symbol? with
      | none =>
        have same : value.mapSymbol (renameAt place own) = value :=
          (mapSymbol_congr (by simp [refers])).trans mapSymbol_id
        rw [relabel, Operand.mapValue, same]
        exact .outside stays rfl (by simp [Line.reference?, Operand.value?, refers])
      | some symbol =>
        by_cases mine : symbol ∈ own
        · have same : value.mapSymbol (renameAt place own) =
              value.mapSymbol fun name => name ++ "_" ++ place := by
            apply mapSymbol_congr
            intro name found
            obtain rfl := Option.some.inj (refers.symm.trans found)
            exact renameAt_of_mem mine
          rw [relabel, Operand.mapValue, same]
          refine .inside ?_ refers mine
          rintro rfl
          contradiction
        · have same : value.mapSymbol (renameAt place own) = value := by
            refine (mapSymbol_congr ?_).trans mapSymbol_id
            intro name found
            obtain rfl := Option.some.inj (refers.symm.trans found)
            exact renameAt_of_not_mem mine
          rw [relabel, Operand.mapValue, same]
          refine .outside stays rfl ?_
          simpa [Line.reference?, Operand.value?, refers] using mine
  | directive content =>
    refine .outside stays rfl ?_
    cases content <;> simp_all [Line.isPlain, Line.reference?]
  | _ => contradiction

theorem copiedLine_spliceLine (plain : line.isPlain = true)
    (labelled : ∀ symbol, line.label? = some symbol → symbol ∈ own) :
    CopiedLine own place line (spliceLine place (renameAt place own) line) := by
  unfold spliceLine
  split
  next returns => exact .returned returns
  next stays => exact copiedLine_relabel plain (Bool.not_eq_true _ ▸ stays) labelled

end CopiedLine

section Dropping

variable {code rest : List Line} {line : Line} {n : Nat}

theorem dropFirstReturn_append (first rest : List Line) :
    dropFirstReturn (first ++ rest) =
      if first.any Line.isInstruction then dropFirstReturn first ++ rest
      else first ++ dropFirstReturn rest := by
  induction first with
  | nil => rfl
  | cons line first ih =>
    rw [List.cons_append, dropFirstReturn, dropFirstReturn, List.any_cons, ih]
    cases line.isInstruction with
    | true =>
      simp only [if_true, Bool.true_or]
      split <;> rfl
    | false =>
      simp only [Bool.false_eq_true, if_false, Bool.false_or]
      split <;> rfl

theorem dropLastReturn_of_silent (silent : rest.any Line.isInstruction = false) :
    dropLastReturn rest = rest := by
  have reversed : rest.reverse.any Line.isInstruction = false := by rwa [List.any_reverse]
  have dropped := dropFirstReturn_append rest.reverse []
  rw [reversed, List.append_nil] at dropped
  rw [dropLastReturn, dropped]
  simp [dropFirstReturn]

theorem dropLastReturn_cons (line : Line) (rest : List Line) :
    dropLastReturn (line :: rest) =
      if isReturn line && !rest.any Line.isInstruction then rest
      else line :: dropLastReturn rest := by
  rw [dropLastReturn, List.reverse_cons, dropFirstReturn_append, List.any_reverse]
  cases busy : rest.any Line.isInstruction with
  | true => simp [dropLastReturn]
  | false =>
    rw [dropLastReturn_of_silent busy]
    cases returns : isReturn line with
    | true => simp [dropFirstReturn, isInstruction_of_isReturn returns, returns]
    | false =>
      cases instruction : line.isInstruction <;> simp [dropFirstReturn, returns, instruction]

theorem dropLastReturn_suffix (code : List Line) (n : Nat) :
    dropLastReturn (code.drop n) <:+ dropLastReturn code := by
  induction code generalizing n with
  | nil => simp
  | cons line rest ih =>
    cases n with
    | zero => exact List.suffix_rfl
    | succ n =>
      refine (ih n).trans ?_
      rw [dropLastReturn_cons]
      split
      next dropped =>
        have silent : rest.any Line.isInstruction = false := by
          simpa using (Bool.and_eq_true_iff.mp dropped).2
        simp [dropLastReturn_of_silent silent]
      next => exact List.suffix_cons _ _

/-- The line of a copy for a line of the body, or where the copy goes on if that is the return that
was dropped. -/
def copyIndex (code : List Line) (n : Nat) : Nat :=
  (dropLastReturn code).length - (dropLastReturn (code.drop n)).length

theorem drop_copyIndex (code : List Line) (n : Nat) :
    (dropLastReturn code).drop (copyIndex code n) = dropLastReturn (code.drop n) :=
  (List.suffix_iff_eq_drop.mp (dropLastReturn_suffix code n)).symm

theorem copyIndex_zero (code : List Line) : copyIndex code 0 = 0 :=
  Nat.sub_self _

theorem copyIndex_of_le (behind : code.length ≤ n) :
    copyIndex code n = (dropLastReturn code).length := by
  rw [copyIndex, List.drop_eq_nil_of_le behind]
  rfl

theorem copyIndex_cases (found : code[n]? = some line) :
    ((dropLastReturn code)[copyIndex code n]? = some line ∧
      copyIndex code (n + 1) = copyIndex code n + 1) ∨
    isReturn line = true ∧
      (∀ other ∈ (dropLastReturn code).drop (copyIndex code n), other.isInstruction = false) ∧
      copyIndex code (n + 1) = copyIndex code n := by
  have split : code.drop n = line :: code.drop (n + 1) := by
    obtain ⟨inside, rfl⟩ := List.getElem?_eq_some_iff.mp found
    exact List.drop_eq_getElem_cons inside
  have here := drop_copyIndex code n
  rw [split, dropLastReturn_cons] at here
  cases dropped : isReturn line && !(code.drop (n + 1)).any Line.isInstruction with
  | true =>
    obtain ⟨returns, silent⟩ := Bool.and_eq_true_iff.mp dropped
    rw [dropped, if_pos rfl] at here
    have quiet : (code.drop (n + 1)).any Line.isInstruction = false := by simpa using silent
    refine .inr ⟨returns, by rw [here]; simpa using quiet, ?_⟩
    rw [copyIndex, copyIndex, split, dropLastReturn_cons, dropped, if_pos rfl,
      dropLastReturn_of_silent quiet]
  | false =>
    rw [dropped, if_neg Bool.false_ne_true] at here
    have kept : (dropLastReturn code)[copyIndex code n]? = some line := by
      rw [← List.head?_drop, here, List.head?_cons]
    refine .inl ⟨kept, ?_⟩
    have count := congrArg List.length here
    rw [List.length_drop, List.length_cons] at count
    have inside := (List.getElem?_eq_some_iff.mp kept).1
    rw [copyIndex]
    omega

/-- The calls of a body are made from its copy. -/
theorem call_mem_splice (place : Symbol) {body : Body} {symbol : Symbol}
    (member : .direct .jsr symbol ∈ body.code) :
    .direct .jsr (renameAt place (bodyLabels body) symbol) ∈ (splice place body).code := by
  obtain ⟨n, found⟩ := List.mem_iff_getElem?.mp member
  rcases copyIndex_cases found with ⟨kept, -⟩ | ⟨returns, -⟩
  · exact List.mem_append_left _ (List.mem_map.mpr ⟨_, List.mem_of_getElem? kept, rfl⟩)
  · contradiction

end Dropping

/-- A copy of a body, in which nothing returns and every label of the body is where its line is. -/
structure Copies (place : Symbol) (body copy : Body) : Prop where
  code : ∃ kept lines, WithoutReturn body.code kept ∧
    List.Forall₂ (CopiedLine (bodyLabels body) place) kept lines ∧
    copy.code = lines ++ (if kept.any isReturn then [.label (spliceEnd place)] else []) ∧
    ∀ n symbol, kept[n]? = some (.label symbol) →
      lineOf? copy.code (symbol ++ "_" ++ place) = some n
  data : List.Forall₂ (CopiedLine (bodyLabels body) place) body.data copy.data ∧
    ∀ n symbol, body.data[n]? = some (.label symbol) →
      lineOf? copy.data (symbol ++ "_" ++ place) = some n
  returns : ∀ line ∈ copy.code ++ copy.data, isReturn line = false
  distinct : (bodyLabels copy).Nodup
  foreign : ∀ symbol ∈ references (body.code ++ body.data), symbol ∉ bodyLabels body →
    symbol ∈ bodyLabels copy → symbol = spliceEnd place

section Copies

variable {host : Symbol} {number : Nat} {body : Body}

theorem words_copyPlace (host : Symbol) (number : Nat) :
    ∃ front, words (copyPlace host number) = front ++ [Nat.toDigits 10 number] := by
  rw [copyPlace, words_append, words_decimal]
  exact ⟨_, rfl⟩

/-- The name behind a copy ends with a word, and those of its other labels with a number. -/
theorem spliceEnd_ne (host : Symbol) (number : Nat) (symbol : Symbol) :
    symbol ++ "_" ++ copyPlace host number ≠ spliceEnd (copyPlace host number) := by
  intro same
  obtain ⟨front, place⟩ := words_copyPlace host number
  have behind : spliceEnd (copyPlace host number) = copyPlace host number ++ "_" ++ "End" := by
    apply String.toList_inj.mp
    simp [spliceEnd]
  have last : words "End" = ["End".toList] := words_of_plain (by decide)
  have split := congrArg words same
  rw [behind, words_append, words_append, place, last, ← List.append_assoc] at split
  have ends : [Nat.toDigits 10 number] = ["End".toList] := (List.append_inj' split rfl).2
  have digits := isNumber_toDigits number
  rw [(List.cons.inj ends).1] at digits
  contradiction

theorem append_place_inj {first second place : Symbol}
    (same : first ++ "_" ++ place = second ++ "_" ++ place) : first = second := by
  have lists := congrArg String.toList same
  simp only [String.toList_append] at lists
  exact String.toList_inj.mp (List.append_cancel_right (List.append_cancel_right lists))

theorem nodup_bodyLabels_splice (distinct : (bodyLabels body).Nodup) :
    (bodyLabels (splice (copyPlace host number) body)).Nodup := by
  rw [(bodyLabels_splice _ _).nodup_iff, List.nodup_append]
  refine ⟨distinct.map fun first second => append_place_inj, ?_, ?_⟩
  · unfold behindCopy
    split <;> simp
  · rintro _ renamed _ behind rfl
    obtain ⟨symbol, -, rfl⟩ := List.mem_map.mp renamed
    unfold behindCopy at behind
    split at behind
    next => exact spliceEnd_ne host number symbol (List.mem_singleton.mp behind)
    next => contradiction

theorem isReturn_spliceLine {place : Symbol} {rename : Symbol → Symbol} (line : Line) :
    isReturn (spliceLine place rename line) = false := by
  unfold spliceLine
  split
  next => rfl
  next stays =>
    rw [isReturn, mnemonic?_relabel]
    exact Bool.not_eq_true _ ▸ stays

theorem lineOf?_map {lines : List Line} {change : Line → Line} {place symbol : Symbol} {n : Nat}
    (behind : List Line) (distinct : (definedLabels (lines.map change ++ behind)).Nodup)
    (renames : change (.label symbol) = .label (symbol ++ "_" ++ place))
    (found : lines[n]? = some (.label symbol)) :
    lineOf? (lines.map change ++ behind) (symbol ++ "_" ++ place) = some n := by
  apply lineOf?_eq_some distinct
  have inside := (List.getElem?_eq_some_iff.mp found).1
  rw [List.getElem?_append_left (by rwa [List.length_map]), List.getElem?_map, found, ← renames]
  rfl

theorem copies_splice (plain : ∀ line ∈ body.code ++ body.data, line.isPlain = true)
    (tables : ∀ line ∈ body.data, line.mnemonic? = none) (distinct : (bodyLabels body).Nodup)
    (apart : ∀ symbol ∈ references (body.code ++ body.data), symbol ∉ bodyLabels body →
      ∀ own ∈ bodyLabels body, symbol ≠ own ++ "_" ++ copyPlace host number) :
    Copies (copyPlace host number) body (splice (copyPlace host number) body) := by
  have labelled : ∀ line ∈ body.code ++ body.data, ∀ symbol, line.label? = some symbol →
      symbol ∈ bodyLabels body := by
    intro line member symbol label
    rw [bodyLabels, ← Site.definedLabels_append]
    exact List.mem_filterMap.mpr ⟨line, member, label⟩
  have inBody : ∀ line ∈ dropLastReturn body.code, line ∈ body.code ++ body.data :=
    fun line member => List.mem_append_left _ ((dropLastReturn_sublist body.code).subset member)
  have unique : (bodyLabels (splice (copyPlace host number) body)).Nodup :=
    nodup_bodyLabels_splice distinct
  obtain ⟨uniqueCode, uniqueData, -⟩ := List.nodup_append.mp unique
  have stays : ∀ line ∈ body.data, isReturn line = false := by
    intro line member
    rw [isReturn, tables line member]
    rfl
  refine ⟨?_, ⟨?_, ?_⟩, ?_, unique, ?_⟩
  · refine ⟨dropLastReturn body.code, _, withoutReturn_dropLastReturn _, ?_, rfl, ?_⟩
    · rw [List.forall₂_map_right_iff, List.forall₂_same]
      intro line member
      have inside := inBody line member
      exact copiedLine_spliceLine (plain line inside) (labelled line inside)
    · intro n symbol found
      have mine := labelled _ (inBody _ (List.mem_of_getElem? found)) symbol rfl
      exact lineOf?_map _ uniqueCode (congrArg Line.label (renameAt_of_mem mine)) found
  · refine List.forall₂_map_right_iff.mpr (List.forall₂_same.mpr ?_)
    intro line member
    have inside := List.mem_append_right body.code member
    exact copiedLine_relabel (plain line inside) (stays line member) (labelled line inside)
  · intro n symbol found
    have mine := labelled _ (List.mem_append_right _ (List.mem_of_getElem? found)) symbol rfl
    have placed := lineOf?_map [] (by rwa [List.append_nil])
      (congrArg Line.label (renameAt_of_mem mine)) found
    rwa [List.append_nil] at placed
  · intro line member
    rcases List.mem_append.mp member with code | data
    · rcases List.mem_append.mp code with copied | behind
      · obtain ⟨original, -, rfl⟩ := List.mem_map.mp copied
        exact isReturn_spliceLine original
      · split at behind
        next =>
          obtain rfl := List.mem_singleton.mp behind
          rfl
        next => contradiction
    · obtain ⟨original, inData, rfl⟩ := List.mem_map.mp data
      rw [isReturn, mnemonic?_relabel]
      exact stays original inData
  · intro symbol refers foreign inside
    rcases List.mem_append.mp ((bodyLabels_splice _ _).mem_iff.mp inside) with renamed | behind
    · obtain ⟨own, mine, rfl⟩ := List.mem_map.mp renamed
      exact absurd rfl (apart _ refers foreign own mine)
    · unfold behindCopy at behind
      split at behind
      next => exact List.mem_singleton.mp behind
      next => contradiction

end Copies

end Cartridge.Emit
