import Cartridge.Asm.Line
import Cartridge.Proofs.Cuts
import Cartridge.Proofs.Numerals

/-!
Assembly text that is written and read back.

Nothing in the text of a value is a blank or one of the marks that addressing modes put around it,
so the marks show where the value ends, and its first character shows what kind of value it is. What
reading yields can be written again, since it checks the names of symbols and takes a lone `A` for
the accumulator before it could become a symbol.
-/

namespace Cartridge.Asm

/-- A name has at least one character, all of them letters and digits of ASCII, low lines and full
stops, and no digit in front. -/
structure IsName (name : Symbol) : Prop where
  present : name ≠ ""
  plain : ∀ c ∈ name.toList, c.isAlphanum = true ∨ c = '_' ∨ c = '.'
  start : ∀ c ∈ name.toList.head?, c.isDigit = false

/-- An operand that no other one shares its text with. A direct `A` would read as the
accumulator. -/
structure Operand.Printable (operand : Operand) : Prop where
  named : ∀ value name, operand.value? = some value → value.symbol? = some name → IsName name
  apart : ∀ name, operand = .addressed .direct (.symbol name) → name ≠ "A" ∧ name ≠ "a"

def Instruction.Printable (instruction : Instruction) : Prop :=
  instruction.operand.Printable

section Characters

variable {c : Char}

theorem isAlphanum_of_digitValue? {radix : Nat}
    (digit : (Text.digitValue? radix c).isSome = true) : c.isAlphanum = true := by
  delta Char.isAlphanum Char.isAlpha Char.isUpper Char.isLower Char.isDigit
  simp only [Bool.or_eq_true, Bool.and_eq_true, decide_eq_true_eq]
  simp only [Text.digitValue?] at digit
  split at digit
  next numeric =>
    simp only [Bool.and_eq_true, decide_eq_true_eq] at numeric
    exact .inr numeric
  next =>
    split at digit
    next lower =>
      simp only [Bool.and_eq_true, decide_eq_true_eq] at lower
      exact .inl (.inr lower)
    next =>
      split at digit
      next upper =>
        simp only [Bool.and_eq_true, decide_eq_true_eq] at upper
        exact .inl (.inl upper)
      next => simp at digit

theorem isBlank_of_isAlphanum (letter : c.isAlphanum = true) : Text.isBlank c = false := by
  delta Char.isAlphanum Char.isAlpha Char.isUpper Char.isLower Char.isDigit at letter
  simp [UInt32.le_iff_toNat_le] at letter
  simp [Text.isBlank, Text.blankRanges]
  omega

/-- The characters that values are written with. -/
def isValueChar (c : Char) : Bool :=
  Value.isSymbolChar c || c == '$' || c == '+' || c == '<' || c == '>'

theorem isBlank_of_isValueChar (kind : isValueChar c = true) : Text.isBlank c = false := by
  simp only [isValueChar, Value.isSymbolChar, Bool.or_eq_true, beq_iff_eq] at kind
  rcases kind with (((((letter | rfl) | rfl) | rfl) | rfl) | rfl) | rfl
  · exact isBlank_of_isAlphanum letter
  all_goals decide

theorem isValueChar_of_isAlphanum (letter : c.isAlphanum = true) : isValueChar c = true := by
  simp [isValueChar, Value.isSymbolChar, letter]

end Characters

namespace IsName

variable {name : Symbol}

theorem isSymbolChar (isName : IsName name) {c : Char} (member : c ∈ name.toList) :
    Value.isSymbolChar c = true := by
  have kind := isName.plain c member
  simpa [Value.isSymbolChar, or_assoc] using kind

theorem isValueChar (isName : IsName name) {c : Char} (member : c ∈ name.toList) :
    isValueChar c = true := by
  simp [Asm.isValueChar, isName.isSymbolChar member]

theorem solid (isName : IsName name) : Text.Solid name.toList := by
  intro c member
  exact isBlank_of_isValueChar (isName.isValueChar member)

theorem not_mem (isName : IsName name) {c : Char} (foreign : Value.isSymbolChar c = false) :
    c ∉ name.toList := by
  intro member
  rw [isName.isSymbolChar member] at foreign
  contradiction

end IsName

namespace Value

theorem isSymbolText_iff {name : Symbol} : isSymbolText name.toList = true ↔ IsName name := by
  cases text : name.toList with
  | nil =>
    have empty : name = "" := String.toList_inj.mp text
    simp only [isSymbolText, Bool.false_eq_true, false_iff]
    intro isName
    exact isName.present empty
  | cons first rest =>
    have present : name ≠ "" := by
      intro empty
      rw [empty] at text
      contradiction
    have digit : isDigit first = first.isDigit := rfl
    simp only [isSymbolText, Bool.and_eq_true, Bool.not_eq_true', List.all_eq_true, digit]
    constructor
    · intro checked
      refine ⟨present, ?_, ?_⟩
      · intro c member
        have kind := checked.2 c (text ▸ member)
        simpa [isSymbolChar, or_assoc] using kind
      · intro c head
        rw [text] at head
        obtain rfl := Option.some.inj head
        exact checked.1
    · intro isName
      refine ⟨isName.start first (by rw [text]; exact rfl), ?_⟩
      intro c member
      exact isName.isSymbolChar (text ▸ member)

theorem readSymbol?_eq_some {text : List Char} {name : Symbol} :
    readSymbol? text = some name ↔ Text.trim text = name.toList ∧ IsName name := by
  simp only [readSymbol?]
  rw [← isSymbolText_iff]
  constructor
  · intro read
    split at read
    next checked =>
      obtain rfl := Option.some.inj read
      rw [String.toList_ofList]
      exact ⟨rfl, checked⟩
    next => contradiction
  · intro spelled
    rw [spelled.1, if_pos spelled.2, String.ofList_toList]

theorem readSymbol?_toList {name : Symbol} (isName : IsName name) :
    readSymbol? name.toList = some name :=
  readSymbol?_eq_some.mpr ⟨isName.solid.trimmed.trim_eq, isName⟩

/-- Text that has no mark in front is a decimal literal, an offset or a symbol. -/
theorem readTrimmed?_eq {text : List Char}
    (unmarked : ∀ c ∈ text.head?, c ∉ ['$', '%', '<', '>']) :
    readTrimmed? text =
      if text.head?.any isDigit then readLiteral? 10 text
      else
        match Text.splitAtFirst? '+' text with
        | some (front, back) => readOffset? front back
        | none => (readSymbol? text).map .symbol := by
  unfold readTrimmed?
  split
  next => simp at unmarked
  next => simp at unmarked
  next => simp at unmarked
  next => simp at unmarked
  next => rfl

theorem isDigit_of_mem_decimal {n : Nat} {c : Char} (member : c ∈ (Text.decimal n).toList) :
    c.isDigit = true := by
  rw [Text.decimal, String.toList_ofList] at member
  exact Nat.isDigit_of_mem_toDigits (by decide) (by decide) member

theorem decimal_ne_nil (n : Nat) : (Text.decimal n).toList ≠ [] := by
  rw [Text.decimal, String.toList_ofList]
  exact Nat.toDigits_ne_nil

theorem readNumeral?_decimal {n limit : Nat} (fits : n ≤ limit) :
    Text.readNumeral? 10 limit (Text.decimal n).toList = some n := by
  refine Text.readNumeral?_eq (decimal_ne_nil n) ?_ (Text.digitsValue?_decimal n) fits
  intro member
  have digit := isDigit_of_mem_decimal member
  contradiction

theorem solid_decimal (n : Nat) : Text.Solid (Text.decimal n).toList := by
  intro c member
  apply isBlank_of_isAlphanum
  simp [Char.isAlphanum, isDigit_of_mem_decimal member]

theorem readTrimmed?_byte (n : UInt8) :
    readTrimmed? (Text.decimal n.toNat).toList = some (.byte n) := by
  have bound := n.toNat_lt
  have digits : ∀ c ∈ (Text.decimal n.toNat).toList.head?, c.isDigit = true := by
    intro c head
    exact isDigit_of_mem_decimal (List.mem_of_head? head)
  have decimal : (Text.decimal n.toNat).toList.head?.any isDigit = true := by
    obtain ⟨c, head⟩ := Option.isSome_iff_exists.mp (List.isSome_head?.mpr (decimal_ne_nil n.toNat))
    rw [head, Option.any_some]
    exact digits c head
  rw [readTrimmed?_eq, if_pos decimal, readLiteral?, readNumeral?_decimal (by omega)]
  · simp [literal, Nat.not_lt.mpr (show n.toNat ≤ 0xFF by omega)]
  · intro c head marked
    have digit := digits c head
    simp only [List.mem_cons, List.not_mem_nil, or_false] at marked
    rcases marked with rfl | rfl | rfl | rfl
    all_goals contradiction

theorem readTrimmed?_word (n : UInt16) :
    readTrimmed? ('$' :: (Text.hexadecimal 4 n.toNat).toList) = some (.word n) := by
  have bound := n.toNat_lt
  have unsigned : '+' ∉ (Text.hexadecimal 4 n.toNat).toList := Text.not_mem_hexadecimal rfl 4 _
  have wide : 4 ≤ (Text.hexadecimal 4 n.toNat).toList.length := by
    simp only [Text.hexadecimal, Text.padZeros, String.toList_ofList, List.length_append,
      List.length_replicate]
    omega
  have present : (Text.hexadecimal 4 n.toNat).toList ≠ [] := by
    intro empty
    rw [empty, List.length_nil] at wide
    contradiction
  have value : Text.readNumeral? 16 0xFFFF (Text.hexadecimal 4 n.toNat).toList = some n.toNat :=
    Text.readNumeral?_eq present unsigned (Text.digitsValue?_hexadecimal 4 n.toNat) (by omega)
  simp only [readTrimmed?, readHexadecimal?, value, Option.map_some, literal]
  rw [decide_eq_true (by omega : 2 < (Text.hexadecimal 4 n.toNat).toList.length), if_pos rfl,
    UInt16.ofNat_toNat]

/-- The text of a name shows by its first character that it is no literal. -/
theorem readTrimmed?_name {name : Symbol} (isName : IsName name) (back : List Char) :
    readTrimmed? (name.toList ++ back) =
      match Text.splitAtFirst? '+' (name.toList ++ back) with
      | some (front, back) => readOffset? front back
      | none => (readSymbol? (name.toList ++ back)).map .symbol := by
  have present : name.toList ≠ [] := by
    intro empty
    exact isName.present (String.toList_inj.mp empty)
  have head : (name.toList ++ back).head? = name.toList.head? :=
    List.head?_append_of_ne_nil _ present
  rw [readTrimmed?_eq, head]
  · have numeric : name.toList.head?.any isDigit = false := by
      obtain ⟨c, first⟩ := Option.isSome_iff_exists.mp (List.isSome_head?.mpr present)
      rw [first, Option.any_some]
      exact isName.start c first
    rw [numeric]
    rfl
  · intro c first marked
    rw [head] at first
    have kind := isName.isSymbolChar (List.mem_of_head? first)
    simp only [List.mem_cons, List.not_mem_nil, or_false] at marked
    rcases marked with rfl | rfl | rfl | rfl
    all_goals contradiction

theorem readTrimmed?_symbol {name : Symbol} (isName : IsName name) :
    readTrimmed? name.toList = some (.symbol name) := by
  have whole := readTrimmed?_name isName []
  rw [List.append_nil] at whole
  rw [whole, Text.splitAtFirst?_eq_none (isName.not_mem rfl), readSymbol?_toList isName]
  rfl

theorem readTrimmed?_offset {name : Symbol} (isName : IsName name) (distance : UInt8) :
    readTrimmed? (name.toList ++ '+' :: (Text.decimal distance.toNat).toList) =
      some (.offset name distance) := by
  have bound := distance.toNat_lt
  rw [readTrimmed?_name isName, Text.splitAtFirst?_append (isName.not_mem rfl)]
  simp only [readOffset?, readSymbol?_toList isName, (solid_decimal _).trimmed.trim_eq,
    readNumeral?_decimal (show distance.toNat ≤ 0xFF by omega), UInt8.ofNat_toNat]

theorem readTrimmed?_render {value : Value}
    (named : ∀ name, value.symbol? = some name → IsName name) :
    readTrimmed? value.render.toList = some value := by
  cases value with
  | byte n => exact readTrimmed?_byte n
  | word n =>
    rw [render, String.toList_append]
    exact readTrimmed?_word n
  | symbol name => exact readTrimmed?_symbol (named name rfl)
  | offset name distance =>
    rw [render, String.toList_append, String.toList_append, List.append_assoc]
    exact readTrimmed?_offset (named name rfl) distance
  | lowByte name =>
    have read := readSymbol?_toList (named name rfl)
    simp [render, readTrimmed?, read]
  | highByte name =>
    have read := readSymbol?_toList (named name rfl)
    simp [render, readTrimmed?, read]

theorem isValueChar_of_mem_render {value : Value}
    (named : ∀ name, value.symbol? = some name → IsName name) {c : Char}
    (member : c ∈ value.render.toList) : isValueChar c = true := by
  have decimal : ∀ n, c ∈ (Text.decimal n).toList → isValueChar c = true := by
    intro n inside
    apply isValueChar_of_isAlphanum
    simp [Char.isAlphanum, isDigit_of_mem_decimal inside]
  cases value with
  | byte n => exact decimal n.toNat member
  | word n =>
    rw [render, String.toList_append, List.mem_append] at member
    rcases member with mark | digit
    · rw [List.mem_singleton.mp mark]
      rfl
    · apply isValueChar_of_isAlphanum
      apply isAlphanum_of_digitValue?
      exact Text.digitValue?_isSome_of_mem (Text.digitsValue?_hexadecimal 4 n.toNat) digit
  | symbol name => exact (named name rfl).isValueChar member
  | offset name distance =>
    rw [render, String.toList_append, String.toList_append, List.mem_append,
      List.mem_append] at member
    rcases member with (inName | mark) | digit
    · exact (named name rfl).isValueChar inName
    · rw [List.mem_singleton.mp mark]
      rfl
    · exact decimal distance.toNat digit
  | lowByte name =>
    rw [render, String.toList_append, List.mem_append] at member
    rcases member with mark | inName
    · rw [List.mem_singleton.mp mark]
      rfl
    · exact (named name rfl).isValueChar inName
  | highByte name =>
    rw [render, String.toList_append, List.mem_append] at member
    rcases member with mark | inName
    · rw [List.mem_singleton.mp mark]
      rfl
    · exact (named name rfl).isValueChar inName

theorem render_ne_nil {value : Value}
    (named : ∀ name, value.symbol? = some name → IsName name) : value.render.toList ≠ [] := by
  intro empty
  have read := readTrimmed?_render named
  rw [empty] at read
  contradiction

theorem solid_render {value : Value} (named : ∀ name, value.symbol? = some name → IsName name) :
    Text.Solid value.render.toList := by
  intro c member
  exact isBlank_of_isValueChar (isValueChar_of_mem_render named member)

theorem read_render {value : Value} (named : ∀ name, value.symbol? = some name → IsName name) :
    read value.render.toList = .ok value := by
  rw [read, (solid_render named).trimmed.trim_eq, readTrimmed?_render named]

theorem read_eq_ok {text : List Char} {value : Value} :
    read text = .ok value ↔ readTrimmed? (Text.trim text) = some value := by
  unfold read
  split <;> simp_all

theorem symbol?_literal (wide : Bool) (number : Nat) : (literal wide number).symbol? = none := by
  cases wide <;> rfl

/-- Whatever is read refers to a name, and what is read as a symbol is its whole text. -/
theorem isName_of_readTrimmed? {text : List Char} {value : Value} {name : Symbol}
    (read : readTrimmed? text = some value) (refers : value.symbol? = some name) :
    IsName name ∧ (value = .symbol name → Text.trim text = name.toList) := by
  have literal : ∀ {found : Option Nat} {wide : Nat → Bool},
      found.map (fun number => literal (wide number) number) ≠ some value := by
    intro found wide made
    obtain ⟨number, -, rfl⟩ := Option.map_eq_some_iff.mp made
    rw [symbol?_literal] at refers
    contradiction
  unfold readTrimmed? at read
  split at read
  next => exact absurd read literal
  next => exact absurd read literal
  next rest =>
    obtain ⟨found, named, rfl⟩ := Option.map_eq_some_iff.mp read
    obtain rfl : found = name := Option.some.inj refers
    exact ⟨(readSymbol?_eq_some.mp named).2, fun same => by contradiction⟩
  next rest =>
    obtain ⟨found, named, rfl⟩ := Option.map_eq_some_iff.mp read
    obtain rfl : found = name := Option.some.inj refers
    exact ⟨(readSymbol?_eq_some.mp named).2, fun same => by contradiction⟩
  next =>
    split at read
    next => exact absurd read literal
    next =>
      split at read
      next front back _ =>
        unfold readOffset? at read
        split at read
        next found distance named _ =>
          obtain rfl := Option.some.inj read
          obtain rfl : found = name := Option.some.inj refers
          exact ⟨(readSymbol?_eq_some.mp named).2, fun same => by contradiction⟩
        next => contradiction
      next =>
        obtain ⟨found, named, rfl⟩ := Option.map_eq_some_iff.mp read
        obtain rfl : found = name := Option.some.inj refers
        exact ⟨(readSymbol?_eq_some.mp named).2, fun _ => (readSymbol?_eq_some.mp named).1⟩

end Value

namespace Operand

theorem readTrimmed_eq {text : List Char} (present : text ≠ [])
    (apart : text ≠ ['A'] ∧ text ≠ ['a']) (unmarked : ∀ c ∈ text.head?, c ≠ '#' ∧ c ≠ '(') :
    readTrimmed text = readIndexed text := by
  unfold readTrimmed
  split
  next => contradiction
  next => exact absurd rfl apart.1
  next => exact absurd rfl apart.2
  next => simp at unmarked
  next => simp at unmarked
  next => rfl

section Modes

variable {text : List Char}

theorem readIndexed_direct (comma : ',' ∉ text) : readIndexed text = addressedBy .direct text := by
  have noX : Text.before? [',', 'X'] text = none :=
    Text.before?_eq_none List.mem_cons_self rfl comma
  have noY : Text.before? [',', 'Y'] text = none :=
    Text.before?_eq_none List.mem_cons_self rfl comma
  simp only [readIndexed, noX, noY]

theorem readIndexed_x (text : List Char) :
    readIndexed (text ++ [',', 'X']) = addressedBy .indexedX text := by
  have cut : Text.before? [',', 'X'] (text ++ [',', 'X']) = some text :=
    Text.before?_eq_some.mpr ⟨_, rfl, rfl⟩
  simp only [readIndexed, cut]

theorem readIndexed_y (text : List Char) :
    readIndexed (text ++ [',', 'Y']) = addressedBy .indexedY text := by
  have other : Text.upper [',', 'Y'] ≠ [',', 'X'] := by decide
  have noX : Text.before? [',', 'X'] (text ++ [',', 'Y']) = none :=
    Text.before?_append_eq_none other rfl text
  have cut : Text.before? [',', 'Y'] (text ++ [',', 'Y']) = some text :=
    Text.before?_eq_some.mpr ⟨_, rfl, rfl⟩
  simp only [readIndexed, noX, cut]

theorem readParenthesised_plain (comma : ',' ∉ text) :
    readParenthesised (text ++ [')']) = addressedBy .indirect text := by
  have absent : ',' ∉ text ++ [')'] := by simp [comma]
  have noX : Text.before? [',', 'X', ')'] (text ++ [')']) = none :=
    Text.before?_eq_none List.mem_cons_self rfl absent
  have noY : Text.before? [')', ',', 'Y'] (text ++ [')']) = none :=
    Text.before?_eq_none (List.mem_cons_of_mem _ List.mem_cons_self) rfl absent
  have cut : Text.before? [')'] (text ++ [')']) = some text :=
    Text.before?_eq_some.mpr ⟨_, rfl, rfl⟩
  simp only [readParenthesised, noX, noY, cut]

theorem readParenthesised_x (text : List Char) :
    readParenthesised (text ++ [',', 'X', ')']) = addressedBy .indirectX text := by
  have cut : Text.before? [',', 'X', ')'] (text ++ [',', 'X', ')']) = some text :=
    Text.before?_eq_some.mpr ⟨_, rfl, rfl⟩
  simp only [readParenthesised, cut]

theorem readParenthesised_y (text : List Char) :
    readParenthesised (text ++ [')', ',', 'Y']) = addressedBy .indirectY text := by
  have other : Text.upper [')', ',', 'Y'] ≠ [',', 'X', ')'] := by decide
  have noX : Text.before? [',', 'X', ')'] (text ++ [')', ',', 'Y']) = none :=
    Text.before?_append_eq_none other rfl text
  have cut : Text.before? [')', ',', 'Y'] (text ++ [')', ',', 'Y']) = some text :=
    Text.before?_eq_some.mpr ⟨_, rfl, rfl⟩
  simp only [readParenthesised, noX, cut]

end Modes

/-- A mode is told by the marks around a text that has none of them itself. -/
theorem readTrimmed_surround {text : String} (present : text.toList ≠ [])
    (valued : ∀ c ∈ text.toList, isValueChar c = true) (mode : Mode)
    (apart : mode = .direct → text ≠ "A" ∧ text ≠ "a") :
    readTrimmed (mode.surround text).toList = addressedBy mode text.toList := by
  have foreign : ∀ c ∈ text.toList, c ≠ ',' ∧ c ≠ '#' ∧ c ≠ '(' := by
    intro c member
    have kind := valued c member
    refine ⟨?_, ?_, ?_⟩
    all_goals
      intro same
      rw [same] at kind
      contradiction
  have comma : ',' ∉ text.toList := fun member => (foreign _ member).1 rfl
  have unmarked : ∀ back, ∀ c ∈ (text.toList ++ back).head?, c ≠ '#' ∧ c ≠ '(' := by
    intro back c head
    rw [List.head?_append_of_ne_nil _ present] at head
    exact (foreign c (List.mem_of_head? head)).2
  have indexed : ∀ back : List Char, 1 < back.length →
      readTrimmed (text.toList ++ back) = readIndexed (text.toList ++ back) := by
    intro back long
    have longer : ∀ c, text.toList ++ back ≠ [c] := by
      intro c same
      have lengths := congrArg List.length same
      rw [List.length_append, List.length_singleton] at lengths
      omega
    exact readTrimmed_eq (List.append_ne_nil_of_left_ne_nil present _) ⟨longer _, longer _⟩
      (unmarked back)
  cases mode with
  | immediate =>
    rw [Mode.surround, String.toList_append]
    rfl
  | direct =>
    obtain ⟨upper, lower⟩ := apart rfl
    have letters : text.toList ≠ ['A'] ∧ text.toList ≠ ['a'] :=
      ⟨fun same => upper (String.toList_inj.mp same), fun same => lower (String.toList_inj.mp same)⟩
    have plain := unmarked []
    rw [List.append_nil] at plain
    rw [Mode.surround, readTrimmed_eq present letters plain, readIndexed_direct comma]
  | indexedX =>
    rw [Mode.surround, String.toList_append]
    exact (indexed [',', 'X'] (by decide)).trans (readIndexed_x _)
  | indexedY =>
    rw [Mode.surround, String.toList_append]
    exact (indexed [',', 'Y'] (by decide)).trans (readIndexed_y _)
  | indirect =>
    rw [Mode.surround, String.toList_append, String.toList_append]
    exact readParenthesised_plain comma
  | indirectX =>
    rw [Mode.surround, String.toList_append, String.toList_append]
    exact readParenthesised_x _
  | indirectY =>
    rw [Mode.surround, String.toList_append, String.toList_append]
    exact readParenthesised_y _

/-- The characters that addressing modes put around a value. -/
theorem mem_surround {text : String} {mode : Mode} {c : Char}
    (member : c ∈ (mode.surround text).toList) :
    c ∈ text.toList ∨ c ∈ ['#', '(', ')', ',', 'X', 'Y'] := by
  cases mode <;> simp [Mode.surround] at member ⊢ <;> grind

theorem solid_surround {text : String} (solid : Text.Solid text.toList) (mode : Mode) :
    Text.Solid (mode.surround text).toList := by
  have marks : Text.Solid ['#', '(', ')', ',', 'X', 'Y'] := by decide
  intro c member
  rcases mem_surround member with inside | mark
  · exact solid c inside
  · exact marks c mark

section Render

variable {operand : Operand}

theorem readTrimmed_render (printable : operand.Printable) :
    readTrimmed operand.render.toList = .ok operand := by
  cases operand with
  | implied => rfl
  | addressed mode value =>
    have named : ∀ name, value.symbol? = some name → IsName name := by
      intro name refers
      exact printable.named value name rfl refers
    have read := Value.readTrimmed?_render named
    have apart : mode = .direct → value.render ≠ "A" ∧ value.render ≠ "a" := by
      intro direct
      subst direct
      -- A value with the text of a register would be the symbol of that name.
      refine ⟨?_, ?_⟩
      · intro same
        rw [same] at read
        have symbol : Value.symbol "A" = value := Option.some.inj read
        exact (printable.apart "A" (by rw [symbol])).1 rfl
      · intro same
        rw [same] at read
        have symbol : Value.symbol "a" = value := Option.some.inj read
        exact (printable.apart "a" (by rw [symbol])).2 rfl
    have valued : ∀ c ∈ value.render.toList, isValueChar c = true := by
      intro c member
      exact Value.isValueChar_of_mem_render named member
    rw [render, readTrimmed_surround (Value.render_ne_nil named) valued mode apart, addressedBy,
      Value.read_render named]
    rfl

theorem solid_render (printable : operand.Printable) : Text.Solid operand.render.toList := by
  cases operand with
  | implied =>
    intro c member
    contradiction
  | addressed mode value =>
    apply solid_surround
    apply Value.solid_render
    intro name refers
    exact printable.named value name rfl refers

theorem render_ne_nil (printable : operand.Printable) (addressed : operand ≠ .implied) :
    operand.render.toList ≠ [] := by
  intro empty
  have read := readTrimmed_render printable
  rw [empty] at read
  exact addressed (Except.ok.inj read).symm

end Render

section Read

variable {text : List Char} {operand : Operand} {mode : Mode}

theorem addressedBy_eq_ok :
    addressedBy mode text = .ok operand ↔
      ∃ value, Value.read text = .ok value ∧ operand = .addressed mode value := by
  unfold addressedBy
  cases Value.read text <;> simp [Except.map, eq_comm]

theorem printable_of_addressedBy (other : mode ≠ .direct)
    (read : addressedBy mode text = .ok operand) : operand.Printable := by
  obtain ⟨value, found, rfl⟩ := addressedBy_eq_ok.mp read
  refine ⟨?_, ?_⟩
  · intro _ name given refers
    obtain rfl := Option.some.inj given
    exact (Value.isName_of_readTrimmed? (Value.read_eq_ok.mp found) refers).1
  · intro name same
    exact absurd (Operand.addressed.inj same).1 other

/-- A lone letter of the accumulator does not get as far as to be a direct operand. -/
theorem printable_of_direct (trimmed : Text.trim text = text)
    (apart : text ≠ ['A'] ∧ text ≠ ['a']) (read : addressedBy .direct text = .ok operand) :
    operand.Printable := by
  obtain ⟨value, found, rfl⟩ := addressedBy_eq_ok.mp read
  have names : ∀ name, value.symbol? = some name →
      IsName name ∧ (value = .symbol name → Text.trim (Text.trim text) = name.toList) := by
    intro name refers
    exact Value.isName_of_readTrimmed? (Value.read_eq_ok.mp found) refers
  refine ⟨?_, ?_⟩
  · intro _ name given refers
    obtain rfl := Option.some.inj given
    exact (names name refers).1
  · intro name same
    obtain rfl := (Operand.addressed.inj same).2
    have spelled := (names name rfl).2 rfl
    rw [trimmed, trimmed] at spelled
    rw [spelled] at apart
    refine ⟨?_, ?_⟩
    · intro upper
      exact apart.1 (congrArg String.toList upper)
    · intro lower
      exact apart.2 (congrArg String.toList lower)

theorem printable_of_readIndexed (trimmed : Text.trim text = text)
    (apart : text ≠ ['A'] ∧ text ≠ ['a']) (read : readIndexed text = .ok operand) :
    operand.Printable := by
  unfold readIndexed at read
  split at read
  next => exact printable_of_addressedBy (by decide) read
  next =>
    split at read
    next => exact printable_of_addressedBy (by decide) read
    next => exact printable_of_direct trimmed apart read

theorem printable_of_read (read : Operand.read text = .ok operand) : operand.Printable := by
  have trimmed := Text.trim_trim text
  have implied : Operand.implied.Printable :=
    ⟨fun _ _ given => by contradiction, fun _ same => by contradiction⟩
  unfold Operand.read at read
  generalize Text.trim text = text at read trimmed
  unfold readTrimmed at read
  split at read
  next => exact Except.ok.inj read ▸ implied
  next => exact Except.ok.inj read ▸ implied
  next => exact Except.ok.inj read ▸ implied
  next => exact printable_of_addressedBy (by decide) read
  next inner =>
    unfold readParenthesised at read
    split at read
    next => exact printable_of_addressedBy (by decide) read
    next =>
      split at read
      next => exact printable_of_addressedBy (by decide) read
      next =>
        split at read
        next => exact printable_of_addressedBy (by decide) read
        next => exact printable_of_readIndexed trimmed (by simp) read
  next upper lower _ _ => exact printable_of_readIndexed trimmed ⟨upper, lower⟩ read

end Read

end Operand

namespace Mnemonic

theorem read_name (mnemonic : Mnemonic) : read mnemonic.name.toList = .ok mnemonic := by
  cases mnemonic <;> rfl

theorem solid_name (mnemonic : Mnemonic) : Text.Solid mnemonic.name.toList := by
  cases mnemonic <;> decide

theorem length_name (mnemonic : Mnemonic) : mnemonic.name.length = 3 := by
  cases mnemonic <;> rfl

theorem toList_name_ne_nil (mnemonic : Mnemonic) : mnemonic.name.toList ≠ [] := by
  intro empty
  have length := mnemonic.length_name
  rw [← String.length_toList, empty] at length
  contradiction

end Mnemonic

namespace Instruction

theorem read_implied (lead : List Char) (leads : ∀ c ∈ lead, Text.isBlank c = true)
    (mnemonic : Mnemonic) : read (lead ++ mnemonic.name.toList) = .ok { mnemonic } := by
  have solid := mnemonic.solid_name
  simp only [read, Text.trim_append leads, solid.trimmed.trim_eq, Text.firstWord_eq_self solid,
    Text.afterFirstWord_eq_nil solid, mnemonic.read_name]
  rfl

/-- Any blanks may stand in front of an instruction, and any but none before its operand. -/
theorem read_addressed (lead gap : List Char) (leads : ∀ c ∈ lead, Text.isBlank c = true)
    (gaps : ∀ c ∈ gap, Text.isBlank c = true) (apart : gap ≠ []) {instruction : Instruction}
    (printable : instruction.Printable) (addressed : instruction.operand ≠ .implied) :
    read (lead ++ (instruction.mnemonic.name.toList ++
      (gap ++ instruction.operand.render.toList))) = .ok instruction := by
  have solid := instruction.mnemonic.solid_name
  have trimmed := Text.trimmed_append solid.trimmed instruction.mnemonic.toList_name_ne_nil gap
    (Operand.solid_render printable).trimmed (Operand.render_ne_nil printable addressed)
  cases gap with
  | nil => exact absurd rfl apart
  | cons c gap =>
    have blank := gaps c List.mem_cons_self
    have rest : ∀ d ∈ gap, Text.isBlank d = true := fun d member =>
      gaps d (List.mem_cons_of_mem c member)
    have operand : Operand.read (gap ++ instruction.operand.render.toList) =
        .ok instruction.operand := by
      rw [Operand.read, Text.trim_append rest, (Operand.solid_render printable).trimmed.trim_eq,
        Operand.readTrimmed_render printable]
    rw [List.cons_append] at trimmed ⊢
    simp only [read, Text.trim_append leads, trimmed.trim_eq, Text.firstWord_append solid blank,
      Text.afterFirstWord_append solid blank, instruction.mnemonic.read_name, operand]
    rfl

theorem read_render {instruction : Instruction} (printable : instruction.Printable) :
    read instruction.render.toList = .ok instruction := by
  obtain ⟨mnemonic, operand⟩ := instruction
  cases operand with
  | implied => exact read_implied [] (by simp) mnemonic
  | addressed mode value =>
    have spelled := read_addressed [] [' '] (by simp) (List.forall_mem_singleton.mpr rfl) (by simp)
      printable (by simp)
    simpa [render] using spelled

theorem read_line {instruction : Instruction} (printable : instruction.Printable) :
    read (Line.instruction instruction).render.toList = .ok instruction := by
  obtain ⟨mnemonic, operand⟩ := instruction
  cases operand with
  | implied =>
    have spelled := read_implied ['\t'] (List.forall_mem_singleton.mpr rfl) mnemonic
    simpa [Line.render] using spelled
  | addressed mode value =>
    have gaps : ∀ c ∈ List.replicate 4 ' ' ++ [' '], Text.isBlank c = true := by
      intro c member
      have space : c = ' ' := by simpa using member
      rw [space]
      rfl
    have spelled := read_addressed ['\t'] (List.replicate 4 ' ' ++ [' '])
      (List.forall_mem_singleton.mpr rfl) gaps (by simp) printable (by simp)
    simpa [Line.render, columns, Text.padRight, mnemonic.length_name] using spelled

theorem printable_of_read {text : List Char} {instruction : Instruction}
    (made : read text = .ok instruction) : instruction.Printable := by
  simp only [read] at made
  cases named : Mnemonic.read (Text.firstWord (Text.trim text)) with
  | error fault =>
    rw [named] at made
    contradiction
  | ok mnemonic =>
    rw [named] at made
    cases given : Operand.read (Text.afterFirstWord (Text.trim text)) with
    | error fault =>
      rw [given] at made
      contradiction
    | ok operand =>
      rw [given] at made
      obtain rfl := Except.ok.inj made
      exact Operand.printable_of_read given

theorem text_round_trip :
    (∀ instruction : Instruction, instruction.Printable →
      read instruction.render.toList = .ok instruction ∧
        read (Line.instruction instruction).render.toList = .ok instruction) ∧
    ∀ (text : List Char) (instruction : Instruction), read text = .ok instruction →
      instruction.Printable ∧ read instruction.render.toList = .ok instruction := by
  refine ⟨?_, ?_⟩
  · intro instruction printable
    exact ⟨read_render printable, read_line printable⟩
  · intro text instruction made
    have printable := printable_of_read made
    exact ⟨printable, read_render printable⟩

theorem text_round_trip_table :
    ∃ instruction : Instruction,
      read "\tlda ( Game.Table + +3 ),y ".toList = .ok instruction ∧ instruction.Printable ∧
        instruction.render = "LDA (Game.Table+3),Y" ∧
        read "LDA (Game.Table+3),Y".toList = .ok instruction ∧
        read "\tLDA     (Game.Table+3),Y".toList = .ok instruction := by
  have made : read "\tlda ( Game.Table + +3 ),y ".toList =
      .ok ⟨.lda, .addressed .indirectY (.offset "Game.Table" 3)⟩ := rfl
  obtain ⟨printable, again⟩ := text_round_trip.2 _ _ made
  exact ⟨_, made, printable, rfl, again, (text_round_trip.1 _ printable).2⟩

end Instruction

end Cartridge.Asm
