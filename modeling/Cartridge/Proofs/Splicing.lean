import Cartridge.Proofs.Labels

/-!
Names in the lines of a body, and what becomes of them when lines are dropped or copied.

The peephole rules drop instructions and never a label. A copy has the labels of the body under new
names, its references follow them, and what it adds is the label behind it.
-/

namespace Cartridge.Asm

/-- The symbol that a line refers to. -/
def Line.reference? : Line → Option Symbol
  | .instruction content => content.operand.value?.bind Value.symbol?
  | .directive (.word symbol) => some symbol
  | _ => none

/-- The name that a line defines. -/
def Line.definition? : Line → Option Symbol
  | .label symbol => some symbol
  | .directive (.equate symbol _) => some symbol
  | _ => none

def references (lines : List Line) : List Symbol :=
  lines.filterMap Line.reference?

def definedNames (lines : List Line) : List Symbol :=
  lines.filterMap Line.definition?

/-- Labels, instructions and tables, which is all that bodies are made of. -/
def Line.isPlain : Line → Bool
  | .label _ => true
  | .instruction _ => true
  | .directive (.bytes _) => true
  | _ => false

theorem Line.isPlain_of_isInstruction {line : Line} (instruction : line.isInstruction = true) :
    line.isPlain = true := by
  cases line <;> simp_all [isInstruction, isPlain]

theorem definedNames_append (first second : List Line) :
    definedNames (first ++ second) = definedNames first ++ definedNames second :=
  List.filterMap_append

theorem references_append (first second : List Line) :
    references (first ++ second) = references first ++ references second :=
  List.filterMap_append

theorem definedNames_of_plain {lines : List Line}
    (plain : ∀ line ∈ lines, line.isPlain = true) : definedNames lines = definedLabels lines := by
  apply List.filterMap_congr
  intro line member
  have isPlain := plain line member
  cases line with
  | directive content => cases content <;> simp_all [Line.isPlain, Line.definition?, Line.label?]
  | _ => rfl

namespace Peephole

theorem label?_of_isPushPull {last line : Line} (redundant : isPushPull last line = true) :
    last.label? = none ∧ line.label? = none := by
  cases last <;> cases line <;> simp_all [isPushPull, Line.label?]

theorem label?_of_isStoreLoad {last line : Line}
    (redundant : isStoreLoad last line = true) : line.label? = none := by
  cases last <;> cases line <;> simp_all [isStoreLoad, Line.label?]

theorem mnemonics_of_isPushPull {last line : Line}
    (redundant : isPushPull last line = true) :
    last.mnemonic? = some .pha ∧ line.mnemonic? = some .pla := by
  cases last <;> cases line <;> simp_all [isPushPull, Line.mnemonic?]

theorem mnemonics_of_isStoreLoad {last line : Line}
    (redundant : isStoreLoad last line = true) :
    last.mnemonic? = some .sta ∧ line.mnemonic? = some .lda := by
  cases last <;> cases line <;> simp_all [isStoreLoad, Line.mnemonic?]

theorem add_sublist (written : List Line) (line : Line) :
    (add written line).Sublist (line :: written) := by
  cases written with
  | nil => exact .refl _
  | cons last written =>
    simp only [add]
    split
    next => exact ((List.Sublist.refl written).cons last).cons line
    next =>
      split
      next => exact (List.Sublist.refl _).cons line
      next => exact .refl _

theorem definedLabels_add (written : List Line) (line : Line) :
    definedLabels (add written line) = definedLabels (line :: written) := by
  cases written with
  | nil => rfl
  | cons last written =>
    simp only [add]
    split
    next redundant =>
      obtain ⟨push, pull⟩ := label?_of_isPushPull redundant
      simp [definedLabels, push, pull]
    next =>
      split
      next redundant => simp [definedLabels, label?_of_isStoreLoad redundant]
      next => rfl

theorem definedLabels_reverse (lines : List Line) :
    definedLabels lines.reverse = (definedLabels lines).reverse :=
  List.filterMap_reverse

/-- A run over lines keeps the labels of those written and of those to come. -/
theorem definedLabels_foldl_add (lines written : List Line) :
    definedLabels (lines.foldl add written).reverse =
      definedLabels (written.reverse ++ lines) := by
  induction lines generalizing written with
  | nil => rw [List.foldl_nil, List.append_nil]
  | cons line lines ih =>
    rw [List.foldl_cons, ih, Emit.Site.definedLabels_append, definedLabels_reverse,
      definedLabels_add, ← definedLabels_reverse, ← Emit.Site.definedLabels_append,
      List.reverse_cons, List.append_assoc]
    rfl

theorem foldl_add_sublist (lines written : List Line) :
    (lines.foldl add written).reverse.Sublist (written.reverse ++ lines) := by
  induction lines generalizing written with
  | nil => rw [List.foldl_nil, List.append_nil]
  | cons line lines ih =>
    refine (ih (add written line)).trans ?_
    have added := (add_sublist written line).reverse.append (.refl lines)
    rwa [List.reverse_cons, List.append_assoc] at added

theorem definedLabels_optimize (lines : List Line) :
    definedLabels (optimize lines) = definedLabels lines :=
  definedLabels_foldl_add lines []

theorem optimize_sublist (lines : List Line) : (optimize lines).Sublist lines :=
  foldl_add_sublist lines []

end Peephole

end Cartridge.Asm

namespace Cartridge.Emit

open Asm
open Program (Body)

theorem bodyLabels_optimizeBody (optimize : Bool) (body : Body) :
    bodyLabels (optimizeBody optimize body) = bodyLabels body := by
  unfold optimizeBody
  split
  next => rw [bodyLabels, Peephole.definedLabels_optimize, bodyLabels]
  next => rfl

theorem label?_relabel (rename : Symbol → Symbol) (line : Line) :
    (relabel rename line).label? = line.label?.map rename := by
  cases line <;> rfl

theorem isInstruction_of_isReturn {line : Line} (returns : isReturn line = true) :
    line.isInstruction = true := by
  cases line <;> simp_all [isReturn, Line.mnemonic?, Line.isInstruction]

theorem label?_spliceLine (place : Symbol) (rename : Symbol → Symbol) (line : Line) :
    (spliceLine place rename line).label? = line.label?.map rename := by
  unfold spliceLine
  split
  next returns =>
    have instruction := isInstruction_of_isReturn returns
    cases line <;> simp_all [Line.isInstruction, Line.label?, Line.direct, Line.on]
  next => exact label?_relabel rename line

theorem dropFirstReturn_sublist (lines : List Line) : (dropFirstReturn lines).Sublist lines := by
  induction lines with
  | nil => exact .refl _
  | cons line lines ih =>
    unfold dropFirstReturn
    split
    next =>
      split
      next => exact (List.Sublist.refl _).cons line
      next => exact .refl _
    next => exact ih.cons_cons line

theorem dropLastReturn_sublist (code : List Line) : (dropLastReturn code).Sublist code := by
  have dropped := (dropFirstReturn_sublist code.reverse).reverse
  rwa [List.reverse_reverse] at dropped

/-- The first instruction is dropped if it is a return, and else nothing is. -/
theorem dropFirstReturn_cases (lines : List Line) :
    (∃ silent line rest, lines = silent ++ line :: rest ∧ isReturn line = true ∧
      (∀ other ∈ silent, other.isInstruction = false) ∧ dropFirstReturn lines = silent ++ rest) ∨
    dropFirstReturn lines = lines ∧ ∀ silent line rest, lines = silent ++ line :: rest →
      isReturn line = true → ∃ other ∈ silent, other.isInstruction = true := by
  induction lines with
  | nil => exact .inr ⟨rfl, by simp⟩
  | cons line lines ih =>
    unfold dropFirstReturn
    split
    next instruction =>
      split
      next returns => exact .inl ⟨[], line, lines, rfl, returns, by simp, rfl⟩
      next stays =>
        refine .inr ⟨rfl, ?_⟩
        intro silent other rest split returns
        cases silent with
        | nil =>
          obtain ⟨rfl, -⟩ := List.cons.inj split
          exact absurd returns stays
        | cons first silent =>
          obtain ⟨rfl, -⟩ := List.cons.inj split
          exact ⟨line, List.mem_cons_self, instruction⟩
    next silentLine =>
      rw [Bool.not_eq_true] at silentLine
      rcases ih with ⟨silent, other, rest, rfl, returns, quiet, dropped⟩ | ⟨kept, last⟩
      · refine .inl ⟨line :: silent, other, rest, rfl, returns, ?_, by rw [dropped]; rfl⟩
        exact List.forall_mem_cons.mpr ⟨silentLine, quiet⟩
      · refine .inr ⟨by rw [kept], ?_⟩
        intro silent other rest split returns
        cases silent with
        | nil =>
          obtain ⟨rfl, -⟩ := List.cons.inj split
          rw [isInstruction_of_isReturn returns] at silentLine
          contradiction
        | cons first silent =>
          obtain ⟨-, tail⟩ := List.cons.inj split
          obtain ⟨found, member, instruction⟩ := last silent other rest tail returns
          exact ⟨found, List.mem_cons_of_mem _ member, instruction⟩

theorem dropLastReturn_cases (code : List Line) :
    (∃ front line rest, code = front ++ line :: rest ∧ isReturn line = true ∧
      (∀ other ∈ rest, other.isInstruction = false) ∧ dropLastReturn code = front ++ rest) ∨
    dropLastReturn code = code ∧ ∀ front line rest, code = front ++ line :: rest →
      isReturn line = true → ∃ other ∈ rest, other.isInstruction = true := by
  rcases dropFirstReturn_cases code.reverse with
    ⟨silent, line, rest, split, returns, quiet, dropped⟩ | ⟨kept, last⟩
  · refine .inl ⟨rest.reverse, line, silent.reverse, ?_, returns, ?_, ?_⟩
    · rw [← List.reverse_reverse code, split]
      simp
    · exact fun other member => quiet other (List.mem_reverse.mp member)
    · rw [dropLastReturn, dropped, List.reverse_append]
  · refine .inr ⟨by rw [dropLastReturn, kept, List.reverse_reverse], ?_⟩
    intro front line rest split returns
    have reversed : code.reverse = rest.reverse ++ line :: front.reverse := by simp [split]
    obtain ⟨other, member, instruction⟩ := last _ _ _ reversed returns
    exact ⟨other, List.mem_reverse.mp member, instruction⟩

theorem definedLabels_dropFirstReturn (lines : List Line) :
    definedLabels (dropFirstReturn lines) = definedLabels lines := by
  induction lines with
  | nil => rfl
  | cons line lines ih =>
    unfold dropFirstReturn
    split
    next instruction =>
      have unlabelled : line.label? = none := by
        cases line <;> simp_all [Line.isInstruction, Line.label?]
      split
      next => simp [definedLabels, unlabelled]
      next => rfl
    next =>
      cases label : line.label? with
      | none => simpa [definedLabels, label] using ih
      | some symbol => simpa [definedLabels, label] using ih

theorem definedLabels_dropLastReturn (code : List Line) :
    definedLabels (dropLastReturn code) = definedLabels code := by
  rw [dropLastReturn, Peephole.definedLabels_reverse, definedLabels_dropFirstReturn,
    Peephole.definedLabels_reverse, List.reverse_reverse]

theorem definedLabels_map {change : Line → Line} {rename : Symbol → Symbol}
    (renames : ∀ line, (change line).label? = line.label?.map rename) (lines : List Line) :
    definedLabels (lines.map change) = (definedLabels lines).map rename := by
  rw [definedLabels, definedLabels, List.filterMap_map, List.map_filterMap]
  apply List.filterMap_congr
  intro line _
  exact renames line

section Copy

variable (place : Symbol) (body : Body)

/-- The label behind a copy, where a return in the middle needs one. -/
def behindCopy : List Symbol :=
  if (dropLastReturn body.code).any isReturn then [spliceEnd place] else []

theorem definedLabels_code_splice :
    definedLabels (splice place body).code =
      (definedLabels body.code).map (renameAt place (bodyLabels body)) ++
        behindCopy place body := by
  rw [splice, Site.definedLabels_append, definedLabels_map (label?_spliceLine place _),
    definedLabels_dropLastReturn, behindCopy]
  split <;> rfl

theorem definedLabels_data_splice :
    definedLabels (splice place body).data =
      (definedLabels body.data).map (renameAt place (bodyLabels body)) :=
  definedLabels_map (label?_relabel _) body.data

end Copy

theorem mem_bodyLabels_splice {place : Symbol} {body : Body} {symbol : Symbol}
    (own : symbol ∈ bodyLabels body) :
    renameAt place (bodyLabels body) symbol ∈ bodyLabels (splice place body) := by
  rw [bodyLabels, definedLabels_code_splice, definedLabels_data_splice]
  rcases List.mem_append.mp own with code | data
  · exact List.mem_append_left _ (List.mem_append_left _ (List.mem_map_of_mem code))
  · exact List.mem_append_right _ (List.mem_map_of_mem data)

theorem reference?_relabel {rename : Symbol → Symbol} {line : Line} {symbol : Symbol}
    (plain : line.isPlain = true) (refers : (relabel rename line).reference? = some symbol) :
    ∃ original, line.reference? = some original ∧ symbol = rename original := by
  cases line with
  | instruction content =>
    obtain ⟨mnemonic, operand⟩ := content
    cases operand with
    | implied => contradiction
    | addressed mode value =>
      cases value with
      | byte n => contradiction
      | word n => contradiction
      | symbol name => exact ⟨name, rfl, (Option.some.inj refers).symm⟩
      | offset name distance => exact ⟨name, rfl, (Option.some.inj refers).symm⟩
      | lowByte name => exact ⟨name, rfl, (Option.some.inj refers).symm⟩
      | highByte name => exact ⟨name, rfl, (Option.some.inj refers).symm⟩
  | directive content => cases content <;> contradiction
  | _ => contradiction

theorem isPlain_relabel (rename : Symbol → Symbol) (line : Line) :
    (relabel rename line).isPlain = line.isPlain := by
  cases line <;> rfl

/-- A reference of a copy goes to a label of the copy, or to where it went before. -/
theorem references_splice {place : Symbol} {body : Body} {symbol : Symbol}
    (plain : ∀ line ∈ body.code, line.isPlain = true)
    (refers : symbol ∈ references (splice place body).code) :
    symbol ∈ bodyLabels (splice place body) ∨
      symbol ∈ references body.code ∧ symbol ∉ bodyLabels body := by
  obtain ⟨line, member, reference⟩ := List.mem_filterMap.mp refers
  rcases List.mem_append.mp member with copied | behind
  · obtain ⟨original, kept, rfl⟩ := List.mem_map.mp copied
    have inBody := (dropLastReturn_sublist body.code).subset kept
    unfold spliceLine at reference
    split at reference
    next returns =>
      -- A return was kept, so the label behind the copy is there.
      obtain rfl := Option.some.inj reference
      have any : (dropLastReturn body.code).any isReturn = true :=
        List.any_eq_true.mpr ⟨original, kept, returns⟩
      refine .inl (List.mem_append_left _ ?_)
      rw [definedLabels_code_splice, behindCopy, if_pos any]
      exact List.mem_append_right _ (List.mem_singleton.mpr rfl)
    next =>
      obtain ⟨named, referred, rfl⟩ := reference?_relabel (plain original inBody) reference
      by_cases own : named ∈ bodyLabels body
      · exact .inl (mem_bodyLabels_splice own)
      · refine .inr ?_
        rw [renameAt, if_neg (by simpa using own)]
        exact ⟨List.mem_filterMap.mpr ⟨original, inBody, referred⟩, own⟩
  · split at behind
    next =>
      obtain rfl := List.mem_singleton.mp behind
      contradiction
    next => contradiction

theorem isPlain_splice {place : Symbol} {body : Body}
    (plain : ∀ line ∈ body.code ++ body.data, line.isPlain = true) :
    ∀ line ∈ (splice place body).code ++ (splice place body).data, line.isPlain = true := by
  intro line member
  rcases List.mem_append.mp member with code | data
  · rcases List.mem_append.mp code with copied | behind
    · obtain ⟨original, kept, rfl⟩ := List.mem_map.mp copied
      unfold spliceLine
      split
      next => rfl
      next =>
        rw [isPlain_relabel]
        exact plain original
          (List.mem_append_left _ ((dropLastReturn_sublist body.code).subset kept))
    · split at behind
      next =>
        obtain rfl := List.mem_singleton.mp behind
        rfl
      next => contradiction
  · obtain ⟨original, inData, rfl⟩ := List.mem_map.mp data
    rw [isPlain_relabel]
    exact plain original (List.mem_append_right _ inData)

end Cartridge.Emit
