import Cartridge.Asm.Library
import Cartridge.Proofs.AssemblyText
import Cartridge.Proofs.Keys

/-!
Libraries that are written and read back.

Reading looks only at the code of each line, which is what its comment and the blanks around it
leave. So the layout of a text does not matter, and what codes do can be said apart from the numbers
of their lines. An implementation joins those that are finished, and the first one to repeat a name
stops the reading at its end.
-/

namespace Cartridge.Text

section Lines

variable {line : List Char}

theorem lines_append (single : '\n' ∉ line) (rest : List Char) :
    lines (line ++ '\n' :: rest) = line :: lines rest := by
  induction line with
  | nil => simp [lines]
  | cons c line ih =>
    rw [List.mem_cons, not_or] at single
    rw [List.cons_append, lines, if_neg (Ne.symm single.1), ih single.2]

theorem lines_eq_singleton (single : '\n' ∉ line) (present : line ≠ []) : lines line = [line] := by
  induction line with
  | nil => exact absurd rfl present
  | cons c line ih =>
    rw [List.mem_cons, not_or] at single
    rw [lines, if_neg (Ne.symm single.1)]
    cases line with
    | nil => rfl
    | cons d line => rw [ih single.2 (List.cons_ne_nil d line)]

end Lines

theorem Trimmed.trim_append {text back : List Char} (trimmed : Trimmed text)
    (blank : ∀ c ∈ back, isBlank c = true) : trim (text ++ back) = text := by
  have atEnd : ∀ c ∈ text.reverse.head?, isBlank c = false := by
    rw [List.head?_reverse]
    exact trimmed.back
  have behind : ∀ c ∈ back.reverse, isBlank c = true := by
    intro c member
    exact blank c (List.mem_reverse.mp member)
  cases text with
  | nil =>
    have none : back.dropWhile isBlank = [] := List.dropWhile_eq_nil_iff.mpr blank
    rw [List.nil_append, trim, trimLeft, none]
    rfl
  | cons first rest =>
    rw [trim, trimLeft, dropWhile_isBlank (by simpa using trimmed.front), trimRight,
      List.reverse_append, List.dropWhile_append_of_pos behind, dropWhile_isBlank atEnd,
      List.reverse_reverse]

end Cartridge.Text

namespace Cartridge.Asm

/-- Text that can stand on a line as it is. -/
structure Plain (text : List Char) : Prop where
  trimmed : Text.Trimmed text
  whole : ';' ∉ text
  single : '\n' ∉ text

/-- A line of text: the code, the blanks around it and perhaps a comment. A line with no code may
still have the rest. -/
structure Row where
  indent : List Char := []
  code : List Char := []
  trail : List Char := []
  comment? : Option (List Char) := none
  blank : (indent ++ trail).all Text.isBlank = true := by rfl
  single : '\n' ∉ indent ++ (trail ++ comment?.getD []) := by decide

namespace Row

def text (row : Row) : List Char :=
  row.indent ++ (row.code ++ row.trail) ++ row.comment?.elim [] (';' :: ·)

variable {row : Row}

theorem isBlank_of_mem {c : Char} (member : c ∈ row.indent ++ row.trail) :
    Text.isBlank c = true :=
  List.all_eq_true.mp row.blank c member

theorem codeOf_text (plain : Plain row.code) : Library.codeOf row.text = row.code := by
  have uncut : ';' ∉ row.indent ++ (row.code ++ row.trail) := by
    intro member
    have kinds : ';' ∈ row.indent ++ row.trail ∨ ';' ∈ row.code := by grind
    rcases kinds with blank | inside
    · exact absurd (row.isBlank_of_mem blank) (by decide)
    · exact plain.whole inside
  have trimmed : Text.trim (row.indent ++ (row.code ++ row.trail)) = row.code := by
    rw [Text.trim_append fun c member => row.isBlank_of_mem (List.mem_append_left _ member)]
    apply plain.trimmed.trim_append
    intro c member
    exact row.isBlank_of_mem (List.mem_append_right _ member)
  cases given : row.comment? with
  | none =>
    rw [Library.codeOf, text, given, Option.elim_none, List.append_nil,
      Text.splitAtFirst?_eq_none uncut]
    exact trimmed
  | some comment =>
    rw [Library.codeOf, text, given, Option.elim_some, Text.splitAtFirst?_append uncut]
    exact trimmed

theorem single_text (plain : Plain row.code) : '\n' ∉ row.text := by
  have apart := row.single
  have inside := plain.single
  cases given : row.comment? <;> simp [text, given] at apart ⊢ <;> grind

theorem code_eq_nil_of_text (empty : row.text = []) : row.code = [] := by
  simp only [text, List.append_eq_nil_iff] at empty
  exact empty.1.2.1

end Row

/-- A text of rows. A line feed ends all but the last, which is empty if the text ends with one. -/
def sheet (rows : List Row) (last : Row) : List Char :=
  rows.foldr (fun row rest => row.text ++ '\n' :: rest) last.text

def codesOf (rows : List Row) : List (List Char) :=
  (rows.map Row.code).filter (!·.isEmpty)

theorem codesOf_append (rows more : List Row) :
    codesOf (rows ++ more) = codesOf rows ++ codesOf more := by
  rw [codesOf, List.map_append, List.filter_append, codesOf, codesOf]

namespace Library

/-- What becomes of the reading over some codes, whatever the numbers of their lines. -/
inductive Follows : List (List Char) → Progress → Except LibraryError Progress → Prop
  | done (progress : Progress) : Follows [] progress (.ok progress)
  | step {code : List Char} {codes : List (List Char)} {progress next : Progress}
    {outcome : Except LibraryError Progress}
    (read : ∀ number, readCode number code progress = .ok next)
    (rest : Follows codes next outcome) : Follows (code :: codes) progress outcome
  | stop {code : List Char} {codes : List (List Char)} {progress : Progress} {error : LibraryError}
    (read : ∀ number, readCode number code progress = .error error) :
    Follows (code :: codes) progress (.error error)

section Layout

variable {progress : Progress} {outcome : Except LibraryError Progress}

theorem readLines_row {row : Row} {codes lines : List (List Char)} (plain : Plain row.code)
    (follows : Follows (codesOf [row] ++ codes) progress outcome) (number : Nat)
    (rest : ∀ next, Follows codes next outcome → readLines (number + 1) lines next = outcome) :
    readLines number (row.text :: lines) progress = outcome := by
  rw [readLines, row.codeOf_text plain]
  cases code : row.code with
  | nil =>
    simp only [codesOf, List.map_cons, code] at follows
    exact rest progress follows
  | cons first more =>
    simp only [codesOf, List.map_cons, code] at follows
    cases follows with
    | step read follows =>
      simp only [List.isEmpty_cons, read]
      exact rest _ follows
    | stop read =>
      simp only [List.isEmpty_cons, read]
      rfl

/-- The layout of a text does not matter. -/
theorem readLines_sheet {last : Row} (ends : Plain last.code) {rows : List Row}
    (plain : ∀ row ∈ rows, Plain row.code)
    (follows : Follows (codesOf (rows ++ [last])) progress outcome) (number : Nat) :
    readLines number (Text.lines (sheet rows last)) progress = outcome := by
  induction rows generalizing progress number with
  | nil =>
    by_cases empty : last.text = []
    · have silent : codesOf [last] = [] := by
        simp [codesOf, last.code_eq_nil_of_text empty]
      rw [List.nil_append, silent] at follows
      rw [sheet, List.foldr_nil, empty]
      cases follows
      rfl
    · rw [sheet, List.foldr_nil, Text.lines_eq_singleton (last.single_text ends) empty]
      rw [List.nil_append, ← List.append_nil (codesOf [last])] at follows
      refine readLines_row ends follows number fun next done => ?_
      cases done
      rfl
  | cons row rows ih =>
    have first := plain row List.mem_cons_self
    rw [sheet, List.foldr_cons, Text.lines_append (row.single_text first)]
    rw [List.cons_append, ← List.singleton_append, codesOf_append] at follows
    refine readLines_row first follows number fun next rest => ?_
    exact ih (fun other member => plain other (List.mem_cons_of_mem row member)) rest (number + 1)

end Layout

end Library

section Spelling

/-- The code of a label or of an instruction. A library holds no other lines. -/
def Line.code : Line → List Char
  | .label symbol => symbol.toList ++ [':']
  | .instruction content => content.render.toList
  | _ => []

inductive Line.Writable : Line → Prop
  | label {symbol : Symbol} (plain : Plain symbol.toList)
    (apart : ¬['.', 'i', 'm', 'p', 'l'] <+: symbol.toList) : Writable (.label symbol)
  | instruction {content : Instruction} (printable : content.Printable) :
    Writable (.instruction content)

/-- The characters that instructions are written with. -/
def isCodeChar (c : Char) : Bool :=
  isValueChar c || [' ', '#', '(', ')', ','].contains c

theorem isCodeChar_of_mem_operand {operand : Operand} (printable : operand.Printable) {c : Char}
    (member : c ∈ operand.render.toList) : isCodeChar c = true := by
  cases operand with
  | implied => cases member
  | addressed mode value =>
    rcases Operand.mem_surround member with inside | mark
    · have kind := Value.isValueChar_of_mem_render
        (fun name refers => printable.named value name rfl refers) inside
      simp [isCodeChar, kind]
    · have marks : ['#', '(', ')', ',', 'X', 'Y'].all isCodeChar = true := rfl
      exact List.all_eq_true.mp marks c mark

theorem isCodeChar_of_mem_name {mnemonic : Mnemonic} {c : Char}
    (member : c ∈ mnemonic.name.toList) : isCodeChar c = true := by
  have all : mnemonic.name.toList.all isCodeChar = true := by
    cases mnemonic <;> rfl
  exact List.all_eq_true.mp all c member

theorem not_mem_render {instruction : Instruction} (printable : instruction.Printable) {c : Char}
    (foreign : isCodeChar c = false) : c ∉ instruction.render.toList := by
  obtain ⟨mnemonic, operand⟩ := instruction
  intro member
  have kind : isCodeChar c = true := by
    cases operand with
    | implied => exact isCodeChar_of_mem_name member
    | addressed mode value =>
      rw [Instruction.render, String.toList_append, String.toList_append, List.mem_append,
        List.mem_append] at member
      rcases member with (inName | space) | inOperand
      · exact isCodeChar_of_mem_name inName
      · rw [List.mem_singleton.mp space]
        rfl
      · exact isCodeChar_of_mem_operand printable inOperand
  rw [kind] at foreign
  contradiction

theorem Instruction.head?_render (instruction : Instruction) :
    ∃ c ≠ '.', instruction.render.toList.head? = some c := by
  obtain ⟨mnemonic, operand⟩ := instruction
  have first : ∃ c ≠ '.', mnemonic.name.toList.head? = some c := by
    cases mnemonic <;> exact ⟨_, by decide, rfl⟩
  obtain ⟨c, apart, starts⟩ := first
  refine ⟨c, apart, ?_⟩
  cases operand with
  | implied => exact starts
  | addressed mode value => simp [render, starts]

theorem Instruction.trimmed_render {instruction : Instruction}
    (printable : instruction.Printable) : Text.Trimmed instruction.render.toList := by
  obtain ⟨mnemonic, operand⟩ := instruction
  have solid := mnemonic.solid_name
  cases operand with
  | implied => exact solid.trimmed
  | addressed mode value =>
    have trimmed := Text.trimmed_append solid.trimmed mnemonic.toList_name_ne_nil [' ']
      (Operand.solid_render printable).trimmed (Operand.render_ne_nil printable (by simp))
    simpa [render] using trimmed

theorem plain_render {instruction : Instruction} (printable : instruction.Printable) :
    Plain instruction.render.toList :=
  ⟨Instruction.trimmed_render printable, not_mem_render printable rfl, not_mem_render printable rfl⟩

namespace Line.Writable

variable {line : Line}

theorem plain (writable : line.Writable) : Plain line.code := by
  cases writable with
  | @label symbol plain apart =>
    refine ⟨?_, by simp [code, plain.whole], by simp [code, plain.single]⟩
    have colon : Text.Trimmed [':'] := Text.trimmed_iff.mpr rfl
    by_cases empty : symbol.toList = []
    · rw [code, empty]
      exact colon
    · exact Text.trimmed_append plain.trimmed empty [] colon (by simp)
  | instruction printable => exact plain_render printable

theorem not_isPrefix (writable : line.Writable) : ¬['.', 'i', 'm', 'p', 'l'] <+: line.code := by
  intro opens
  cases writable with
  | label plain apart =>
    rcases List.prefix_concat_iff.mp opens with whole | inside
    · have last := congrArg List.getLast? whole
      simp at last
    · exact apart inside
  | @instruction content printable =>
    obtain ⟨c, other, starts⟩ := content.head?_render
    obtain ⟨rest, joined⟩ := opens
    rw [← show _ = content.render.toList from joined] at starts
    exact other (Option.some.inj starts).symm

theorem ne_end (writable : line.Writable) : line.code ≠ ['.', 'e', 'n', 'd'] := by
  intro closes
  cases writable with
  | label plain apart =>
    have last := congrArg List.getLast? closes
    simp [code] at last
  | @instruction content printable =>
    obtain ⟨c, other, starts⟩ := content.head?_render
    rw [show content.render.toList = _ from closes] at starts
    exact other (Option.some.inj starts).symm

theorem readBodyLine_code (writable : line.Writable) (number : Nat) :
    Library.readBodyLine number line.code = .ok line := by
  cases writable with
  | @label symbol plain apart =>
    have cut : Text.before? [':'] (symbol.toList ++ [':']) = some symbol.toList :=
      Text.before?_eq_some.mpr ⟨_, rfl, rfl⟩
    simp only [Library.readBodyLine, code, cut, plain.trimmed.trim_eq, String.ofList_toList]
  | @instruction content printable =>
    have uncut : Text.before? [':'] content.render.toList = none :=
      Text.before?_eq_none List.mem_cons_self rfl (not_mem_render printable rfl)
    simp only [Library.readBodyLine, code, uncut, Instruction.read_render printable]

end Line.Writable

end Spelling

namespace Implementation

/-- The codes of an implementation, from its opening to its end. -/
def codes (implementation : Implementation) : List (List Char) :=
  (".impl ".toList ++ implementation.name.toList) ::
    (implementation.lines.map Line.code ++ [".end".toList])

structure Writable (implementation : Implementation) : Prop where
  named : implementation.name ≠ ""
  plain : Plain implementation.name.toList
  lines : ∀ line ∈ implementation.lines, line.Writable

theorem Writable.plain_of_mem_codes {implementation : Implementation}
    (writable : implementation.Writable) {code : List Char} (member : code ∈ implementation.codes) :
    Plain code := by
  rw [codes, List.mem_cons, List.mem_append, List.mem_map, List.mem_singleton] at member
  rcases member with rfl | ⟨line, inside, rfl⟩ | rfl
  · have present : implementation.name.toList ≠ [] := by
      simpa using writable.named
    have opening : Text.Trimmed ".impl".toList := Text.trimmed_iff.mpr rfl
    refine ⟨?_, by simp [writable.plain.whole], by simp [writable.plain.single]⟩
    exact Text.trimmed_append opening (by simp) [' '] writable.plain.trimmed present
  · exact (writable.lines line inside).plain
  · exact ⟨Text.trimmed_iff.mpr rfl, by decide, by decide⟩

end Implementation

namespace Library

section Codes

variable {finished : Library} {codes : List (List Char)} {outcome : Except LibraryError Progress}

theorem readCode_opening {name : String} (named : name ≠ "") (plain : Plain name.toList)
    (number : Nat) :
    readCode number (".impl ".toList ++ name.toList) ⟨finished, none⟩ =
      .ok ⟨finished, some ⟨name, []⟩⟩ := by
  have kept : Text.trim (' ' :: name.toList) = name.toList := by
    rw [← List.singleton_append, Text.trim_append (List.forall_mem_singleton.mpr rfl),
      plain.trimmed.trim_eq]
  have cut : ['.', 'i', 'm', 'p', 'l'].isPrefixOf? (".impl ".toList ++ name.toList) =
      some (' ' :: name.toList) := List.isPrefixOf?_eq_some_iff_append_eq.mpr rfl
  simp only [readCode, cut, openImplementation, kept, String.ofList_toList]
  rw [if_neg (by simpa using named)]

theorem readCode_line {line : Line} (writable : line.Writable) (current : Implementation)
    (number : Nat) :
    readCode number line.code ⟨finished, some current⟩ =
      .ok ⟨finished, some { current with lines := line :: current.lines }⟩ := by
  have uncut : ['.', 'i', 'm', 'p', 'l'].isPrefixOf? line.code = none := by
    rw [Option.eq_none_iff_forall_ne_some]
    intro rest found
    exact writable.not_isPrefix ⟨rest, List.isPrefixOf?_eq_some_iff_append_eq.mp found⟩
  simp only [readCode, uncut, if_neg writable.ne_end, writable.readBodyLine_code]
  rfl

theorem Follows.lines {lines : List Line} (writable : ∀ line ∈ lines, line.Writable)
    {current : Implementation}
    (rest : Follows codes
      ⟨finished, some { current with lines := lines.reverse ++ current.lines }⟩ outcome) :
    Follows (lines.map Line.code ++ codes) ⟨finished, some current⟩ outcome := by
  induction lines generalizing current with
  | nil => exact rest
  | cons line lines ih =>
    have first := writable line List.mem_cons_self
    refine .step (readCode_line first current) (ih ?_ ?_)
    · intro other member
      exact writable other (List.mem_cons_of_mem line member)
    · simpa using rest

/-- The end of an implementation decides what becomes of it. -/
theorem Follows.implementation {implementation : Implementation}
    (writable : implementation.Writable)
    (closes : Follows (".end".toList :: codes)
      ⟨finished, some { implementation with lines := implementation.lines.reverse }⟩ outcome) :
    Follows (implementation.codes ++ codes) ⟨finished, none⟩ outcome := by
  rw [Implementation.codes, List.cons_append, List.append_assoc]
  refine .step (readCode_opening writable.named writable.plain) ?_
  exact Follows.lines writable.lines (by simpa using closes)

theorem Follows.fresh {implementation : Implementation} (writable : implementation.Writable)
    (fresh : implementation.name ∉ finished.implementations.map (·.name))
    (rest : Follows codes ⟨⟨finished.implementations ++ [implementation]⟩, none⟩ outcome) :
    Follows (implementation.codes ++ codes) ⟨finished, none⟩ outcome := by
  refine .implementation writable (.step (fun number => ?_) rest)
  change closeImplementation _ _ = _
  have unknown : finished.find? implementation.name = none := find?_key_eq_none.mpr fresh
  simp only [closeImplementation, unknown, List.reverse_reverse]

theorem Follows.repeated {implementation : Implementation} (writable : implementation.Writable)
    (taken : implementation.name ∈ finished.implementations.map (·.name)) :
    Follows (implementation.codes ++ codes) ⟨finished, none⟩
      (.error (.duplicate implementation.name)) := by
  refine .implementation writable (.stop fun number => ?_)
  change closeImplementation _ _ = _
  cases found : finished.find? implementation.name with
  | none => exact absurd taken (find?_key_eq_none.mp found)
  | some earlier => simp only [closeImplementation, found]

theorem Follows.all {implementations earlier : List Implementation}
    (writable : ∀ implementation ∈ implementations, implementation.Writable)
    (distinct : ((earlier ++ implementations).map (·.name)).Nodup)
    (rest : Follows codes ⟨⟨earlier ++ implementations⟩, none⟩ outcome) :
    Follows (implementations.flatMap Implementation.codes ++ codes) ⟨⟨earlier⟩, none⟩ outcome := by
  induction implementations generalizing earlier with
  | nil => simpa using rest
  | cons implementation implementations ih =>
    have fresh : implementation.name ∉ earlier.map (·.name) := by
      rw [List.map_append, List.nodup_append] at distinct
      intro taken
      exact distinct.2.2 _ taken _ List.mem_cons_self rfl
    rw [List.append_cons] at distinct rest
    rw [List.flatMap_cons, List.append_assoc]
    refine .fresh (writable _ List.mem_cons_self) fresh (ih ?_ distinct rest)
    · intro other member
      exact writable other (List.mem_cons_of_mem _ member)

end Codes

theorem get?_eq_some {implementations : List Implementation}
    (distinct : (implementations.map (·.name)).Nodup) {name : String} {lines : List Line} :
    get? ⟨implementations⟩ name = some lines ↔ ⟨name, lines⟩ ∈ implementations := by
  simp only [get?, find?, Option.map_eq_some_iff, find?_key_eq_some distinct]
  constructor
  · rintro ⟨found, ⟨member, rfl⟩, rfl⟩
    exact member
  · intro member
    exact ⟨_, ⟨member, rfl⟩, rfl⟩

section Text

variable {implementations : List Implementation} {rows : List Row} {last : Row}

theorem plain_of_shown
    (writable : ∀ implementation ∈ implementations, implementation.Writable)
    (shown : codesOf rows = implementations.flatMap Implementation.codes) {row : Row}
    (member : row ∈ rows) : Plain row.code := by
  cases code : row.code with
  | nil => exact ⟨Text.trimmed_iff.mpr rfl, List.not_mem_nil, List.not_mem_nil⟩
  | cons first more =>
    have among : first :: more ∈ codesOf rows := by
      rw [codesOf, List.mem_filter, List.mem_map]
      exact ⟨⟨row, member, code⟩, rfl⟩
    rw [shown, List.mem_flatMap] at among
    obtain ⟨implementation, inside, holds⟩ := among
    exact (writable implementation inside).plain_of_mem_codes holds

theorem readLines_of_shown
    (writable : ∀ implementation ∈ implementations, implementation.Writable)
    (shown : codesOf (rows ++ [last]) = implementations.flatMap Implementation.codes)
    {outcome : Except LibraryError Progress}
    (follows : Follows (implementations.flatMap Implementation.codes) ⟨{}, none⟩ outcome) :
    readLines 1 (Text.lines (sheet rows last)) ⟨{}, none⟩ = outcome := by
  rw [← shown] at follows
  refine readLines_sheet (plain_of_shown writable shown (by simp)) ?_ follows 1
  intro row member
  exact plain_of_shown writable shown (List.mem_append_left _ member)

/-- A library that is written with any layout is read back, unless two of its implementations share
a name: then the first one to repeat a name is reported. -/
theorem read_sheet (writable : ∀ implementation ∈ implementations, implementation.Writable)
    (shown : codesOf (rows ++ [last]) = implementations.flatMap Implementation.codes) :
    ((implementations.map (·.name)).Nodup → read (sheet rows last) = .ok ⟨implementations⟩ ∧
      ∀ name lines, get? ⟨implementations⟩ name = some lines ↔ ⟨name, lines⟩ ∈ implementations) ∧
    (¬(implementations.map (·.name)).Nodup →
      ∃ before again after, implementations = before ++ again :: after ∧
        (before.map (·.name)).Nodup ∧ again.name ∈ before.map (·.name) ∧
        read (sheet rows last) = .error (.duplicate again.name)) := by
  refine ⟨?_, ?_⟩
  · intro distinct
    have follows : Follows (implementations.flatMap Implementation.codes) ⟨{}, none⟩
        (.ok ⟨⟨implementations⟩, none⟩) := by
      rw [← List.append_nil (List.flatMap _ _)]
      exact .all writable distinct (.done _)
    refine ⟨?_, fun name lines => get?_eq_some distinct⟩
    rw [read, readLines_of_shown writable shown follows]
    rfl
  · intro repeated
    obtain ⟨before, again, after, rfl, distinct, taken⟩ := exists_first_repeated repeated
    refine ⟨before, again, after, rfl, distinct, taken, ?_⟩
    have follows : Follows ((before ++ again :: after).flatMap Implementation.codes) ⟨{}, none⟩
        (.error (.duplicate again.name)) := by
      rw [List.flatMap_append, List.flatMap_cons]
      refine .all ?_ distinct (.repeated (writable again ?_) taken)
      · intro earlier member
        exact writable earlier (List.mem_append_left _ member)
      · exact List.mem_append_right _ List.mem_cons_self
    rw [read, readLines_of_shown writable shown follows]
    rfl

/-- Routines whose names and labels look like other parts of a library. -/
def kernel : List Implementation :=
  [⟨"Wait .end", [.label ".end", .direct .lda "INTIM", .direct .bne ".end", .op .rts]⟩,
    ⟨"RTS:", [.op .rts]⟩]

def kernelRows : List Row :=
  [{ indent := ['\t'], comment? := some "Kernel; .impl".toList },
    { code := ".impl Wait .end".toList },
    { code := ".end:".toList, trail := [' ', '\r'] },
    { indent := ['\t', ' '], code := "LDA INTIM".toList, trail := [' '], comment? := some [] },
    { indent := ['\t'], code := "BNE .end".toList },
    {},
    { code := "RTS".toList },
    { code := ".end".toList, comment? := some ".end".toList },
    { indent := [' '], code := ".impl RTS:".toList },
    { code := "RTS".toList }]

def kernelEnd : Row :=
  { code := ".end".toList }

def kernelText : String :=
  "\t;Kernel; .impl\n.impl Wait .end\n.end: \r\n\t LDA INTIM ;\n\tBNE .end\n\nRTS\n.end;.end\n" ++
    " .impl RTS:\nRTS\n.end"

theorem kernelText_eq : kernelText.toList = sheet kernelRows kernelEnd := by
  decide +kernel

theorem read_sheet_kernel :
    (∀ implementation ∈ kernel, implementation.Writable) ∧
    codesOf (kernelRows ++ [kernelEnd]) = kernel.flatMap Implementation.codes ∧
    read kernelText.toList = .ok ⟨kernel⟩ ∧
    get? ⟨kernel⟩ "RTS:" = some [.op .rts] ∧
    ∃ name, read (sheet (kernelRows ++ kernelEnd :: kernelRows) kernelEnd) =
      .error (.duplicate name) := by
  have returns : (Line.op .rts).Writable := by
    have made : Instruction.read "RTS".toList = _ := rfl
    exact .instruction (Instruction.printable_of_read made)
  have writable : ∀ implementation ∈ kernel, implementation.Writable := by
    intro implementation member
    simp only [kernel, List.mem_cons, List.not_mem_nil, or_false] at member
    rcases member with rfl | rfl
    · refine ⟨by decide, ⟨Text.trimmed_iff.mpr rfl, by decide, by decide⟩, ?_⟩
      intro line inside
      simp only [List.mem_cons, List.not_mem_nil, or_false] at inside
      rcases inside with rfl | rfl | rfl | rfl
      · exact .label ⟨Text.trimmed_iff.mpr rfl, by decide, by decide⟩ (by decide)
      · have made : Instruction.read "LDA INTIM".toList = _ := rfl
        exact .instruction (Instruction.printable_of_read made)
      · have made : Instruction.read "BNE .end".toList = _ := rfl
        exact .instruction (Instruction.printable_of_read made)
      · exact returns
    · refine ⟨by decide, ⟨Text.trimmed_iff.mpr rfl, by decide, by decide⟩, ?_⟩
      intro line inside
      rw [List.mem_singleton.mp inside]
      exact returns
  have shown : codesOf (kernelRows ++ [kernelEnd]) = kernel.flatMap Implementation.codes := by
    decide +kernel
  obtain ⟨back, provides⟩ := (read_sheet writable shown).1 (by decide)
  rw [← kernelText_eq] at back
  refine ⟨writable, shown, back, (provides _ _).mpr (by decide), ?_⟩
  have twice : ∀ implementation ∈ kernel ++ kernel, implementation.Writable := by
    intro implementation member
    exact writable implementation ((List.mem_append.mp member).elim id id)
  have repeats : codesOf (kernelRows ++ kernelEnd :: kernelRows ++ [kernelEnd]) =
      (kernel ++ kernel).flatMap Implementation.codes := by decide +kernel
  obtain ⟨_, again, _, _, _, _, stopped⟩ := (read_sheet twice repeats).2 (by decide)
  exact ⟨again.name, stopped⟩

end Text

end Library

end Cartridge.Asm
