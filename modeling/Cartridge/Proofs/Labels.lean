import Cartridge.Proofs.Lowering
import Cartridge.Proofs.Processor

/-!
The labels in the code of a body.

A label tells what it marks: an instruction by its index, or a place inside a comparison by a number
that is used once. Numbers only grow while a body is compiled, so no label is defined twice, and the
line of a branch target is the one where the code of the instruction starts.
-/

namespace Cartridge.Emit

open Asm (Line Mnemonic Symbol definedLabels)
open Machine (LinesAt lineOf? lineOf?_eq_some)

theorem ofDigitChars_padZeros (width : Nat) (digits : List Char) :
    Nat.ofDigitChars 10 (Text.padZeros width digits) 0 = Nat.ofDigitChars 10 digits 0 := by
  rw [Text.padZeros]
  induction width - digits.length with
  | zero => rfl
  | succ zeros ih =>
    rw [List.replicate_succ, List.cons_append, Nat.ofDigitChars_cons]
    exact ih

theorem eq_of_append_underscore {front other digits numerals : List Char}
    (first : '_' ∉ digits) (second : '_' ∉ numerals)
    (same : front ++ '_' :: digits = other ++ '_' :: numerals) : digits = numerals := by
  have cut : ∀ text tail : List Char, '_' ∉ tail →
      ((text ++ '_' :: tail).reverse.takeWhile (· != '_')).reverse = tail := by
    intro text tail plain
    rw [List.reverse_append, List.reverse_cons, List.append_assoc, List.takeWhile_append_of_pos]
    · simp
    · intro c member
      simpa using ne_of_mem_of_not_mem (List.mem_reverse.mp member) plain
  rw [← cut front digits first, same, cut other numerals second]

namespace Site

variable {site : Site} {stem other : String} {number index : Nat}

theorem instructionLabel_inj {last : Nat}
    (same : site.instructionLabel index = site.instructionLabel last) : index = last := by
  have lists := congrArg String.toList same
  simp only [instructionLabel, String.toList_append, Text.paddedDecimal,
    String.toList_ofList] at lists
  have values := congrArg (Nat.ofDigitChars 10 · 0) (List.append_cancel_left lists)
  simpa only [ofDigitChars_padZeros, Nat.ofDigitChars_ten_toDigits] using values

theorem numberedLabel_inj {last : Nat}
    (same : site.numberedLabel stem number = site.numberedLabel other last) : number = last := by
  have lists := congrArg String.toList same
  simp only [numberedLabel, String.toList_append, Text.decimal, String.toList_ofList,
    List.append_assoc] at lists
  have rest := List.append_cancel_left (List.append_cancel_left lists)
  have digits : Nat.toDigits 10 number = Nat.toDigits 10 last :=
    eq_of_append_underscore Nat.underscore_not_in_toDigits Nat.underscore_not_in_toDigits rest
  have values := congrArg (Nat.ofDigitChars 10 · 0) digits
  simpa only [Nat.ofDigitChars_ten_toDigits] using values

/-- The labels of instructions start with letters that no stem starts with. -/
def IsStem (stem : String) : Prop :=
  2 ≤ stem.toList.length ∧ stem.toList.take 2 ≠ ['I', 'L']

instance : DecidablePred IsStem :=
  fun _ => inferInstanceAs (Decidable (_ ∧ _))

theorem instructionLabel_ne_numberedLabel (isStem : IsStem stem) :
    site.instructionLabel index ≠ site.numberedLabel stem number := by
  intro same
  have lists := congrArg String.toList same
  simp only [instructionLabel, numberedLabel, String.toList_append, List.append_assoc] at lists
  have rest : 'I' :: 'L' :: '_' :: (Text.paddedDecimal 4 index).toList =
      stem.toList ++ ("_".toList ++ (Text.decimal number).toList) :=
    (List.cons.inj (List.append_cancel_left lists)).2
  have start := congrArg (List.take 2) rest
  rw [List.take_append_of_le_length isStem.1] at start
  exact isStem.2 start.symm

theorem definedLabels_append (first second : List Line) :
    definedLabels (first ++ second) = definedLabels first ++ definedLabels second :=
  List.filterMap_append

theorem definedLabels_eq_nil {lines : List Line} (plain : lines.all Line.isInstruction = true) :
    definedLabels lines = [] := by
  rw [definedLabels, List.filterMap_eq_nil_iff]
  intro line member
  have instruction := List.all_eq_true.mp plain line member
  cases line <;> simp_all [Line.isInstruction, Line.label?]

def Numbered (site : Site) (low high : Nat) (label : Symbol) : Prop :=
  ∃ stem number, IsStem stem ∧ low < number ∧ number ≤ high ∧
    label = site.numberedLabel stem number

theorem definedLabels_outcomeLines (stem : String) (branches : List (Mnemonic × Bool))
    (labels : Nat) :
    definedLabels (site.outcomeLines stem branches labels) =
      [site.numberedLabel (stem ++ "False") (labels + 1),
        site.numberedLabel (stem ++ "True") (labels + 2),
        site.numberedLabel (stem ++ "End") (labels + 3)] := by
  have branching : definedLabels (branches.map fun branch => Line.direct branch.1
      (if branch.2 then site.numberedLabel (stem ++ "True") (labels + 2)
        else site.numberedLabel (stem ++ "False") (labels + 1))) = [] := by
    apply definedLabels_eq_nil
    simp [Line.isInstruction, Line.direct, Line.on]
  rw [outcomeLines, definedLabels_append, branching]
  rfl

theorem outcomeLines_labels {opcode : Code.Opcode} {branches : List (Mnemonic × Bool)}
    {labels : Nat}
    (kind : (opcode, stem, branches) ∈
      [(Code.Opcode.compareGreater, "Cgt", [(Mnemonic.beq, false), (.bcs, true)]),
        (.compareEqual, "Ceq", [(.beq, true)]), (.compareLess, "Clt", [(.bcc, true)])]) :
    (definedLabels (site.outcomeLines stem branches labels)).Nodup ∧
      ∀ label ∈ definedLabels (site.outcomeLines stem branches labels),
        Numbered site labels (labels + 3) label := by
  have stems : ∀ part ∈ ["False", "True", "End"], IsStem (stem ++ part) := by
    simp only [List.mem_cons, List.not_mem_nil, or_false, Prod.mk.injEq] at kind
    rcases kind with ⟨-, rfl, -⟩ | ⟨-, rfl, -⟩ | ⟨-, rfl, -⟩ <;> decide
  have apart : ∀ first second first' second', first ≠ second →
      site.numberedLabel first' first ≠ site.numberedLabel second' second :=
    fun _ _ _ _ differ same => differ (numberedLabel_inj same)
  rw [definedLabels_outcomeLines]
  constructor
  · simp [apart]
  · intro label member
    simp only [List.mem_cons, List.not_mem_nil, or_false] at member
    rcases member with rfl | rfl | rfl
    · exact ⟨_, labels + 1, stems _ (by simp), by omega, by omega, rfl⟩
    · exact ⟨_, labels + 2, stems _ (by simp), by omega, by omega, rfl⟩
    · exact ⟨_, labels + 3, stems _ (by simp), by omega, by omega, rfl⟩

theorem storeFieldLines_plain {size offset : Nat} {code : List Line}
    (made : site.storeFieldLines index size offset = .ok code) :
    code.all Line.isInstruction = true := by
  rcases storeFieldLines_eq_ok made with ⟨-, rfl⟩ | ⟨-, rfl⟩ | ⟨-, -, rfl⟩ <;>
    simp [Line.isInstruction, Line.op, Line.on]

theorem lowered_plain {instruction : Code.Instruction} {labels : Nat} {stack : Code.EvalStack}
    {fragment : Fragment} (lowered : Lowered site index labels instruction stack fragment)
    (notCall : instruction.opcode ≠ .call) :
    fragment.labels = labels ∧ fragment.code.all Line.isInstruction = true ∨
      fragment.labels = labels + 3 ∧ (definedLabels fragment.code).Nodup ∧
        ∀ label ∈ definedLabels fragment.code, Numbered site labels (labels + 3) label := by
  cases lowered with
  | compare kind byte secondByte =>
    refine .inr ⟨rfl, ?_⟩
    rw [definedLabels_append]
    exact outcomeLines_labels kind
  | call found made => exact absurd rfl notCall
  | storeField member reach address lines => exact .inl ⟨rfl, storeFieldLines_plain lines⟩
  | fieldAddress member reach address =>
    refine .inl ⟨rfl, ?_⟩
    split <;> simp [Line.isInstruction, Line.op, Line.on, Line.immediate]
  | _ =>
    refine .inl ⟨rfl, ?_⟩
    simp [loadLines, storeLines, pullOperands, Line.isInstruction, Line.op, Line.on, Line.direct,
      Line.immediate]

theorem lowered_labels {instruction : Code.Instruction} {labels : Nat} {stack : Code.EvalStack}
    {fragment : Fragment} (lowered : Lowered site index labels instruction stack fragment)
    (notCall : instruction.opcode ≠ .call) :
    labels ≤ fragment.labels ∧ (definedLabels fragment.code).Nodup ∧
      ∀ label ∈ definedLabels fragment.code, Numbered site labels fragment.labels label := by
  rcases lowered_plain lowered notCall with ⟨same, plain⟩ | ⟨more, labelled⟩
  · rw [definedLabels_eq_nil plain, same]
    exact ⟨Nat.le_refl _, List.nodup_nil, by simp⟩
  · rw [more]
    exact ⟨Nat.le_add_right _ _, labelled⟩

/-- A label that may have been defined before an instruction. -/
def Labelled (site : Site) (index labels : Nat) (label : Symbol) : Prop :=
  (∃ earlier < index, label = site.instructionLabel earlier) ∨ Numbered site 0 labels label

theorem Labelled.mono {labels last more : Nat} {label : Symbol}
    (labelled : Labelled site index labels label) (before : index ≤ last)
    (grown : labels ≤ more) : Labelled site last more label := by
  rcases labelled with ⟨earlier, below, rfl⟩ | ⟨stem, number, isStem, low, high, rfl⟩
  · exact .inl ⟨earlier, Nat.lt_of_lt_of_le below before, rfl⟩
  · exact .inr ⟨stem, number, isStem, low, Nat.le_trans high grown, rfl⟩

theorem Labelled.ne_instructionLabel {labels last : Nat} {label : Symbol}
    (labelled : Labelled site index labels label) (before : index ≤ last) :
    label ≠ site.instructionLabel last := by
  rcases labelled with ⟨earlier, below, rfl⟩ | ⟨stem, number, isStem, -, -, rfl⟩
  · intro same
    have equal := instructionLabel_inj same
    omega
  · exact (instructionLabel_ne_numberedLabel isStem).symm

theorem Labelled.ne_numberedLabel {labels : Nat} {label : Symbol}
    (labelled : Labelled site index labels label) (isStem : IsStem stem) (above : labels < number) :
    label ≠ site.numberedLabel stem number := by
  rcases labelled with ⟨earlier, below, rfl⟩ | ⟨other, last, -, -, high, rfl⟩
  · exact instructionLabel_ne_numberedLabel isStem
  · intro same
    have equal := numberedLabel_inj same
    omega

theorem actionLabels_compile (targets : List Nat) (index : Nat) :
    site.actionLabels targets (.compile index) =
      if index ∈ targets then [.label (site.instructionLabel index)] else [] := by
  by_cases member : index ∈ targets <;> simp [actionLabels, Action.indices, member]

theorem definedLabels_actionLabels (targets : List Nat) (index : Nat) :
    (definedLabels (site.actionLabels targets (.compile index))).Sublist
      [site.instructionLabel index] := by
  rw [actionLabels_compile]
  split
  next => exact .refl _
  next => exact List.nil_sublist _

def CallFree (site : Site) : Prop :=
  ∀ instruction ∈ site.subroutine.instructions, instruction.opcode ≠ .call

theorem CallFree.executesNone (callFree : site.CallFree) : site.ExecutesNone := by
  intro instruction member
  have notCall := callFree instruction member
  obtain ⟨opcode, operand⟩ := instruction
  cases opcode <;> simp_all [executedCallee?, Code.Instruction.callee?]

/-- Every label that has been defined is of what was compiled, and was defined once. -/
theorem progress_labels (callFree : site.CallFree) {before : Progress}
    (reached : site.progress index = .ok before)
    (inside : index ≤ site.subroutine.instructions.length) :
    (definedLabels before.code).Nodup ∧
      ∀ label ∈ definedLabels before.code, Labelled site index before.labels label := by
  induction index generalizing before with
  | zero =>
    obtain rfl := Except.ok.inj reached
    simp [definedLabels]
  | succ index ih =>
    have found := List.getElem?_eq_getElem (Nat.lt_of_succ_le inside)
    obtain ⟨earlier, fragment, reachedEarlier, stepped, rfl⟩ := progress_succ_eq_ok found reached
    have notCall := callFree _ (List.mem_of_getElem? found)
    obtain ⟨distinct, known⟩ := ih reachedEarlier (Nat.le_of_succ_le inside)
    obtain ⟨grown, distinctNew, numbered⟩ := lowered_labels (lowered_of_step stepped) notCall
    have own : (definedLabels (site.actionLabels (Code.targets site.subroutine.instructions)
        (.compile index))).Sublist [site.instructionLabel index] :=
      definedLabels_actionLabels _ _
    have isOwn := fun label (member : label ∈ definedLabels _) =>
      List.mem_singleton.mp (own.subset member)
    simp only [Progress.after, definedLabels_append]
    -- Labels before this instruction have smaller indices and numbers than those it adds.
    constructor
    · have distinctOwn := own.nodup (by simp)
      refine List.nodup_append.mpr
        ⟨List.nodup_append.mpr ⟨distinct, distinctOwn, ?_⟩, distinctNew, ?_⟩
      · intro label old other member
        rw [isOwn other member]
        exact (known label old).ne_instructionLabel (Nat.le_refl _)
      · intro label member other new
        obtain ⟨stem, number, isStem, low, -, rfl⟩ := numbered other new
        rcases List.mem_append.mp member with old | mine
        · exact (known label old).ne_numberedLabel isStem low
        · rw [isOwn label mine]
          exact instructionLabel_ne_numberedLabel isStem
    · intro label member
      simp only [List.mem_append] at member
      rcases member with (old | mine) | new
      · exact (known label old).mono (Nat.le_succ _) grown
      · exact .inl ⟨index, Nat.lt_succ_self _, isOwn label mine⟩
      · obtain ⟨stem, number, isStem, low, high, rfl⟩ := numbered label new
        exact .inr ⟨stem, number, isStem, Nat.zero_lt_of_lt low, high, rfl⟩

theorem progress_code_prefix {last : Nat} {before done : Progress}
    (made : site.progress last = .ok done) (reached : site.progress index = .ok before)
    (earlier : index ≤ last) (inside : last ≤ site.subroutine.instructions.length) :
    before.code <+: done.code := by
  induction earlier generalizing done with
  | refl =>
    obtain rfl := Except.ok.inj (reached.symm.trans made)
    exact List.prefix_refl _
  | @step last _ ih =>
    have found := List.getElem?_eq_getElem (Nat.lt_of_succ_le inside)
    obtain ⟨between, fragment, reachedBetween, -, rfl⟩ := progress_succ_eq_ok found made
    have front := ih reachedBetween (Nat.le_of_succ_le inside)
    refine front.trans ?_
    rw [Progress.after, List.append_assoc]
    exact List.prefix_append _ _

section Compiled

variable {body : Program.Body}

theorem definedLabels_nodup (callFree : site.CallFree) (compiled : site.compile = .ok body) :
    (definedLabels body.code).Nodup := by
  obtain ⟨done, complete, rfl⟩ := (compile_eq_ok callFree.executesNone).mp compiled
  exact (progress_labels callFree complete (Nat.le_refl _)).1

theorem placed_of_compile (callFree : site.CallFree) (compiled : site.compile = .ok body)
    {before : Progress} {fragment : Fragment}
    (advanced : site.progress (index + 1) = .ok (Progress.after site index before fragment))
    (inside : index < site.subroutine.instructions.length) :
    LinesAt body.code before.code.length
      (site.actionLabels (Code.targets site.subroutine.instructions) (.compile index) ++
        fragment.code) := by
  obtain ⟨done, complete, rfl⟩ := (compile_eq_ok callFree.executesNone).mp compiled
  obtain ⟨rest, split⟩ := progress_code_prefix complete advanced inside (Nat.le_refl _)
  refine ⟨rest, ?_⟩
  rw [← split, Progress.after, List.append_assoc before.code, List.append_assoc before.code,
    List.drop_left]

/-- A branch goes to the line where the code of its target starts. -/
theorem lineOf?_instructionLabel (callFree : site.CallFree) (compiled : site.compile = .ok body)
    {target : Nat} (isTarget : target ∈ Code.targets site.subroutine.instructions)
    {before : Progress} (reached : site.progress target = .ok before)
    (inside : target < site.subroutine.instructions.length) :
    lineOf? body.code (site.instructionLabel target) = some before.code.length := by
  obtain ⟨same, fragment, reachedAgain, -, advanced⟩ :=
    step_of_compile callFree.executesNone compiled (List.getElem?_eq_getElem inside)
  obtain rfl := Except.ok.inj (reachedAgain.symm.trans reached)
  have placed := placed_of_compile callFree compiled advanced inside
  rw [actionLabels_compile, if_pos isTarget] at placed
  exact lineOf?_eq_some (definedLabels_nodup callFree compiled) placed.head

end Compiled

end Site

end Cartridge.Emit
