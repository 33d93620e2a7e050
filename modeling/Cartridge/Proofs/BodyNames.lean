import Cartridge.Proofs.Names
import Cartridge.Proofs.References

/-!
The names that a listing defines.

The labels of a body are read as names of the grammar. Instructions have their indices and all else
is numbered from one count, which the end of a label tells, so the labels of a body are distinct;
the names of different bodies are too, since they tell in which subroutine they are defined.
-/

namespace Cartridge.Emit

open Asm (Line Symbol definedLabels definedNames)
open Program (Bodies Body CallGraph Subroutine TypeTable)

/-- What a label ends in: the index of an instruction, or a number. -/
inductive Ending where
  | instruction (index : Nat)
  | numbered (n : Nat)
  | behind (n : Nat)

namespace Ending

/-- Reads the ending of a label from the last of its words. -/
def read? (row : List (List Char)) : Option Ending :=
  match row.reverse with
  | last :: before :: _ =>
    if last = "End".toList then some (.behind (Nat.ofDigitChars 10 before 0))
    else if before = "IL".toList then some (.instruction (Nat.ofDigitChars 10 last 0))
    else some (.numbered (Nat.ofDigitChars 10 last 0))
  | _ => none

def Within (indices : List Nat) (low high : Nat) : Ending → Prop
  | .instruction index => index ∈ indices
  | .numbered n => low < n ∧ n ≤ high
  | .behind n => low < n ∧ n ≤ high

theorem Within.absurd {ending : Ending} {indices others : List Nat} {low middle high : Nat}
    (within : ending.Within indices low middle) (later : ending.Within others middle high)
    (apart : indices.Disjoint others) : False := by
  cases ending with
  | instruction index => exact apart within later
  | numbered n => exact Nat.not_lt_of_le within.2 later.1
  | behind n => exact Nat.not_lt_of_le within.2 later.1

theorem ne_end_of_isNumber {word : List Char} (numeric : isNumber word = true) :
    word ≠ "End".toList := by
  rintro rfl
  contradiction

theorem read?_append (front : List (List Char)) (before last : List Char) :
    read? (front ++ [before, last]) =
      if last = "End".toList then some (.behind (Nat.ofDigitChars 10 before 0))
      else if before = "IL".toList then some (.instruction (Nat.ofDigitChars 10 last 0))
      else some (.numbered (Nat.ofDigitChars 10 last 0)) := by
  simp only [read?, List.reverse_append, List.reverse_cons, List.reverse_nil, List.nil_append,
    List.cons_append]

theorem read?_instruction (front : List (List Char)) (index : Nat) :
    read? (front ++ (Mark.instruction index).parts) = some (.instruction index) := by
  rw [Mark.parts, read?_append, if_neg (ne_end_of_isNumber (isNumber_padZeros 4 index)),
    if_pos rfl, ofDigitChars_padZeros, Nat.ofDigitChars_ten_toDigits]

theorem read?_behind (front : List (List Char)) (n : Nat) :
    read? (front ++ (Mark.behind n).parts) = some (.behind n) := by
  rw [Mark.parts, List.append_cons, read?_append, if_pos rfl, Nat.ofDigitChars_ten_toDigits]

theorem read?_inlined (front : List (List Char)) (n : Nat) :
    read? (front ++ (Mark.inlined n).parts) = some (.numbered n) := by
  rw [Mark.parts, read?_append, if_neg (ne_end_of_isNumber (isNumber_toDigits n)),
    if_neg (by decide), Nat.ofDigitChars_ten_toDigits]

theorem read?_numbered (front : List (List Char)) {stem : String} (known : stem ∈ Mark.stems)
    (n : Nat) : read? (front ++ (Mark.numbered stem n).parts) = some (.numbered n) := by
  have others : ∀ stem ∈ Mark.stems, stem.toList ≠ "IL".toList := by decide
  rw [Mark.parts, read?_append, if_neg (ne_end_of_isNumber (isNumber_toDigits n)),
    if_neg (others stem known), Nat.ofDigitChars_ten_toDigits]

end Ending

namespace Name

/-- The number that a name got in the body where it is defined. -/
def number? (name : Name) : Option Nat :=
  match name.copies.getLast?, name.mark with
  | some copy, _ => some copy.2
  | none, .numbered _ n => some n
  | none, .behind n => some n
  | none, _ => none

/-- Names of instructions by their indices and others by their numbers. -/
def Within (host : Symbol) (indices : List Nat) (low high : Nat) (name : Name) : Prop :=
  name.host = host ∧
    ((∃ index ∈ indices, name = { owner := host, mark := .instruction index }) ∨
      ∃ n, name.number? = some n ∧ low < n ∧ n ≤ high)

variable {name : Name} {place : Symbol × Nat}

/-- The mark that a name ends in. -/
def last (name : Name) : Mark :=
  (name.copies.getLast?.map fun copy => .inlined copy.2).getD name.mark

theorem render_copy : (name.copy place).render = renderCopy name.render place := by
  rw [render, copy, List.foldl_append]
  rfl

theorem host_copy : (name.copy place).host = place.1 := by
  simp [host, copy]

theorem number?_copy : (name.copy place).number? = some place.2 := by
  simp [number?, copy]

theorem words_render_last {labels : List Symbol} (based : name.Over labels) :
    ∃ front, words name.render = front ++ name.last.parts := by
  rcases List.eq_nil_or_concat name.copies with none | ⟨before, copy, copied⟩
  · refine ⟨words name.owner, ?_⟩
    rw [words_render based, last, none]
    simp [copyParts]
  · refine ⟨words name.owner ++ (name.mark.parts ++ (copyParts before ++ words copy.1)), ?_⟩
    rw [words_render based, last, copied]
    simp [copyParts]

/-- The spelling of a name tells its index or its number. -/
theorem Within.ending {labels : List Symbol} {host : Symbol} {indices : List Nat} {low high : Nat}
    (within : name.Within host indices low high) (based : name.Over labels) :
    ∃ ending, Ending.read? (words name.render) = some ending ∧
      ending.Within indices low high := by
  obtain ⟨front, spelled⟩ := words_render_last based
  rw [spelled]
  obtain ⟨-, ⟨index, member, rfl⟩ | ⟨n, number, range⟩⟩ := within
  · exact ⟨.instruction index, Ending.read?_instruction front index, member⟩
  · rw [last]
    revert number
    rw [number?]
    cases name.copies.getLast? with
    | some copy =>
      intro number
      obtain rfl := Option.some.inj number
      exact ⟨.numbered copy.2, Ending.read?_inlined front copy.2, range⟩
    | none =>
      have legal := based.legal
      cases mark : name.mark with
      | numbered stem m =>
        intro number
        obtain rfl := Option.some.inj number
        rw [mark] at legal
        exact ⟨.numbered m, Ending.read?_numbered front legal m, range⟩
      | behind m =>
        intro number
        obtain rfl := Option.some.inj number
        exact ⟨.behind m, Ending.read?_behind front m, range⟩
      | _ => exact fun number => nomatch number

theorem Over.copy {labels : List Symbol} (based : name.Over labels) (known : place.1 ∈ labels) :
    (name.copy place).Over labels := by
  refine ⟨based.owner, based.legal, based.own, ?_⟩
  intro copy member
  rcases List.mem_append.mp member with old | new
  · exact based.copies copy old
  · rw [List.mem_singleton.mp new]
    exact known

end Name

theorem bodyLabels_splice (place : Symbol) (body : Body) :
    (bodyLabels (splice place body)).Perm
      ((bodyLabels body).map (fun symbol => symbol ++ "_" ++ place) ++ behindCopy place body) := by
  have renamed : ∀ symbols, symbols ⊆ bodyLabels body →
      symbols.map (renameAt place (bodyLabels body)) =
        symbols.map fun symbol => symbol ++ "_" ++ place := by
    intro symbols own
    apply List.map_congr_left
    intro symbol member
    rw [renameAt, if_pos (by simpa using own member)]
  rw [bodyLabels, definedLabels_code_splice, definedLabels_data_splice,
    renamed _ (List.subset_append_left _ _), renamed _ (List.subset_append_right _ _),
    bodyLabels, List.map_append, List.append_assoc, List.append_assoc]
  exact .append_left _ List.perm_append_comm

def copyPlace (host : Symbol) (n : Nat) : Symbol :=
  host ++ "_" ++ "Inline" ++ "_" ++ Text.decimal n

/-- The name behind a copy, where there is one. -/
def endNames (host : Symbol) (n : Nat) (body : Body) : List Name :=
  if (dropLastReturn body.code).any isReturn then [{ owner := host, mark := .behind n }] else []

theorem render_copy_eq (host : Symbol) (n : Nat) (name : Name) :
    (name.copy (host, n)).render = name.render ++ "_" ++ copyPlace host n := by
  rw [Name.render_copy]
  apply String.toList_inj.mp
  simp [Name.renderCopy, Mark.render, copyPlace]

theorem behindCopy_eq (host : Symbol) (n : Nat) (body : Body) :
    behindCopy (copyPlace host n) body = (endNames host n body).map Name.render := by
  have rendered : spliceEnd (copyPlace host n) =
      Name.render { owner := host, mark := .behind n } := by
    apply String.toList_inj.mp
    simp [spliceEnd, copyPlace, Name.render, Mark.render]
  rw [behindCopy, endNames, rendered]
  split <;> rfl

theorem eq_of_mem_endNames {host : Symbol} {n : Nat} {body : Body} {name : Name}
    (member : name ∈ endNames host n body) : name = { owner := host, mark := .behind n } := by
  unfold endNames at member
  split at member
  next => exact List.mem_singleton.mp member
  next => contradiction

theorem ne_spliceEnd_copyPlace (symbol host : Symbol) (n : Nat) :
    symbol ++ "_" ++ copyPlace host n ≠ spliceEnd (copyPlace host n) := by
  intro same
  have parted : spliceEnd (copyPlace host n) = copyPlace host n ++ "_" ++ "End" := by
    rw [spliceEnd, String.append_assoc]
    rfl
  have last := congrArg (fun symbol => (words symbol).getLast?) same
  simp only [parted, words_append, List.getLast?_append] at last
  simp only [copyPlace, words_append, words_decimal, List.getLast?_append,
    List.getLast?_singleton, Option.some_or] at last
  exact Ending.ne_end_of_isNumber (isNumber_toDigits n) (Option.some.inj last)

/-- Symbols that are names over labels, each of them once. -/
def Named (labels : List Symbol) (host : Symbol) (indices : List Nat) (low high : Nat)
    (symbols : List Symbol) : Prop :=
  ∃ names : List Name, symbols.Perm (names.map Name.render) ∧ symbols.Nodup ∧
    ∀ name ∈ names, name.Over labels ∧ name.Within host indices low high

section Named

variable {labels : List Symbol} {host : Symbol} {indices others : List Nat} {low middle high : Nat}
  {symbols more : List Symbol}

theorem named_nil : Named labels host indices low high [] :=
  ⟨[], .nil, List.nodup_nil, by simp⟩

theorem Named.perm (named : Named labels host indices low high symbols)
    (same : more.Perm symbols) : Named labels host indices low high more := by
  obtain ⟨names, renders, distinct, known⟩ := named
  exact ⟨names, same.trans renders, same.nodup_iff.mpr distinct, known⟩

theorem Named.ending (named : Named labels host indices low high symbols) {symbol : Symbol}
    (member : symbol ∈ symbols) :
    ∃ ending, Ending.read? (words symbol) = some ending ∧ ending.Within indices low high := by
  obtain ⟨names, renders, -, known⟩ := named
  obtain ⟨name, inside, rfl⟩ := List.mem_map.mp (renders.mem_iff.mp member)
  obtain ⟨based, within⟩ := known name inside
  exact within.ending based

theorem Named.append (named : Named labels host indices low middle symbols)
    (next : Named labels host others middle high more) (rises : low ≤ middle)
    (grows : middle ≤ high) (apart : indices.Disjoint others) :
    Named labels host (indices ++ others) low high (symbols ++ more) := by
  have apartSymbols : ∀ symbol ∈ symbols, ∀ other ∈ more, symbol ≠ other := by
    rintro symbol first _ second rfl
    -- Two instructions have different indices, and two numbers lie in different ranges.
    obtain ⟨ending, reads, within⟩ := named.ending first
    obtain ⟨_, readsLater, later⟩ := next.ending second
    obtain rfl := Option.some.inj (reads.symm.trans readsLater)
    exact within.absurd later apart
  obtain ⟨names, renders, distinct, known⟩ := named
  obtain ⟨later, rendersLater, distinctLater, knownLater⟩ := next
  refine ⟨names ++ later, ?_, List.nodup_append.mpr ⟨distinct, distinctLater, apartSymbols⟩, ?_⟩
  · rw [List.map_append]
    exact renders.append rendersLater
  · intro name member
    rcases List.mem_append.mp member with first | second
    · obtain ⟨based, hosted, within⟩ := known name first
      refine ⟨based, hosted, within.imp ?_ ?_⟩
      · rintro ⟨index, inside, same⟩
        exact ⟨index, List.mem_append_left _ inside, same⟩
      · rintro ⟨n, number, above, below⟩
        exact ⟨n, number, above, Nat.le_trans below grows⟩
    · obtain ⟨based, hosted, within⟩ := knownLater name second
      refine ⟨based, hosted, within.imp ?_ ?_⟩
      · rintro ⟨index, inside, same⟩
        exact ⟨index, List.mem_append_right _ inside, same⟩
      · rintro ⟨n, number, above, below⟩
        exact ⟨n, number, Nat.lt_of_le_of_lt rises above, below⟩

theorem named_numbered {stem : String} {n : Nat} (known : host ∈ labels)
    (isStem : stem ∈ Mark.stems) (above : low < n) (below : n ≤ high) :
    Named labels host indices low high [host ++ "_" ++ stem ++ "_" ++ Text.decimal n] := by
  refine ⟨[{ owner := host, mark := .numbered stem n }], ?_, by simp, ?_⟩
  · simp [Name.render, Mark.render, String.append_assoc]
  · intro name member
    obtain rfl := List.mem_singleton.mp member
    exact ⟨⟨known, isStem, rfl, by simp⟩, rfl, .inr ⟨n, rfl, above, below⟩⟩

/-- All labels of a copy, and the one behind it, have the number of the copy. -/
theorem Named.copy {body : Body} {owner : Symbol} {n last : Nat}
    (named : Named labels owner indices low last (bodyLabels body)) (known : host ∈ labels)
    (above : middle < n) (below : n ≤ high) :
    Named labels host others middle high (bodyLabels (splice (copyPlace host n) body)) := by
  obtain ⟨names, renders, distinct, based⟩ := named
  refine ⟨names.map (Name.copy (host, n)) ++ endNames host n body, ?_,
    (bodyLabels_splice _ body).nodup_iff.mpr (List.nodup_append.mpr ⟨?_, ?_, ?_⟩), ?_⟩
  · refine (bodyLabels_splice _ body).trans ?_
    have copied : Name.render ∘ Name.copy (host, n) =
        (fun symbol => symbol ++ "_" ++ copyPlace host n) ∘ Name.render :=
      funext (render_copy_eq host n)
    rw [behindCopy_eq, List.map_append, List.map_map, copied, ← List.map_map]
    exact .append_right _ (renders.map _)
  · apply distinct.map
    intro first second same
    simpa using same
  · unfold behindCopy
    split <;> simp
  · rintro _ inCopy _ isEnd rfl
    obtain ⟨symbol, -, copied⟩ := List.mem_map.mp inCopy
    unfold behindCopy at isEnd
    split at isEnd
    next => exact ne_spliceEnd_copyPlace symbol host n (copied.trans (List.mem_singleton.mp isEnd))
    next => contradiction
  · intro name member
    rcases List.mem_append.mp member with inCopy | isEnd
    · obtain ⟨original, old, rfl⟩ := List.mem_map.mp inCopy
      exact ⟨(based original old).1.copy known, Name.host_copy,
        .inr ⟨n, Name.number?_copy, above, below⟩⟩
    · rw [eq_of_mem_endNames isEnd]
      exact ⟨⟨known, trivial, rfl, by simp⟩, rfl, .inr ⟨n, rfl, above, below⟩⟩

end Named

namespace Site

variable {site : Site} {stems : List Symbol} {labels : Nat}

/-- What a site needs to know of bodies that it copies. -/
structure Copies (site : Site) (stems : List Symbol) : Prop where
  own : site.subroutine.label ∈ stems
  inlined : ∀ id callee body, site.types.subroutine? id = some callee →
    callee.intrinsic? = some .alwaysInline → callee.body? = some body →
    ∃ indices low high, Named stems callee.label indices low high (bodyLabels body)

theorem named_of_plain {fragment : Fragment} (same : fragment.labels = labels)
    (plain : fragment.code.all Line.isInstruction = true) (tableless : fragment.data = []) :
    labels ≤ fragment.labels ∧ Named stems site.subroutine.label [] labels fragment.labels
      (definedLabels fragment.code ++ definedLabels fragment.data) := by
  rw [definedLabels_eq_nil plain, tableless]
  exact ⟨Nat.le_of_eq same.symm, named_nil⟩

theorem named_evaluated {fragment : Fragment} (known : site.subroutine.label ∈ stems)
    (evaluated : Evaluated site labels fragment) :
    labels ≤ fragment.labels ∧ Named stems site.subroutine.label [] labels fragment.labels
      (definedLabels fragment.code ++ definedLabels fragment.data) := by
  cases evaluated with
  | convert => exact named_of_plain rfl rfl rfl
  | data =>
    exact ⟨Nat.le_succ _, named_numbered known (by decide) (Nat.lt_succ_self _) (Nat.le_refl _)⟩

theorem isInstruction_of_passes {code : List Line} (passes : site.Passes code) :
    code.all Line.isInstruction = true := by
  obtain ⟨moves, -, rfl⟩ := passes
  simp [storeLines, Line.isInstruction, Line.op, Line.on]

theorem isInstruction_resultLines (callee : Subroutine) :
    (resultLines callee).all Line.isInstruction = true := by
  unfold resultLines
  split <;> rfl

theorem named_called {fragment : Fragment} {id : SubroutineId} {callee : Subroutine}
    (copies : site.Copies stems) (found : site.types.subroutine? id = some callee)
    (called : Called site labels callee fragment) :
    labels ≤ fragment.labels ∧ Named stems site.subroutine.label [] labels fragment.labels
      (definedLabels fragment.code ++ definedLabels fragment.data) := by
  cases called with
  | @store symbol strobe stack marked =>
    refine named_of_plain rfl ?_ rfl
    cases strobe <;> rfl
  | @register register stack marked =>
    refine named_of_plain rfl ?_ rfl
    cases register <;> rfl
  | load marked => exact named_of_plain rfl rfl rfl
  | evaluated evaluated => exact named_evaluated copies.own evaluated
  | @inlined body passing stack marked present passes =>
    obtain ⟨indices, low, high, named⟩ := copies.inlined id callee body found marked present
    refine ⟨Nat.le_succ _, ?_⟩
    rw [definedLabels_append, definedLabels_append,
      definedLabels_eq_nil (isInstruction_of_passes passes),
      definedLabels_eq_nil (isInstruction_resultLines callee), List.nil_append, List.append_nil]
    exact named.copy copies.own (Nat.lt_succ_self _) (Nat.le_refl _)
  | jumped kept apart passes =>
    refine named_of_plain rfl ?_ rfl
    rw [List.all_append, List.all_append, isInstruction_of_passes passes,
      isInstruction_resultLines]
    rfl

theorem named_outcome {stem : String} {opcode : Code.Opcode}
    {branches : List (Asm.Mnemonic × Bool)} (known : site.subroutine.label ∈ stems)
    (kind : (opcode, stem, branches) ∈
      [(Code.Opcode.compareGreater, "Cgt", [(Asm.Mnemonic.beq, false), (.bcs, true)]),
        (.compareEqual, "Ceq", [(.beq, true)]), (.compareLess, "Clt", [(.bcc, true)])]) :
    Named stems site.subroutine.label [] labels (labels + 3)
      (definedLabels (site.outcomeLines stem branches labels)) := by
  have legal : ∀ part ∈ ["False", "True", "End"], stem ++ part ∈ Mark.stems := by
    simp only [List.mem_cons, List.not_mem_nil, or_false, Prod.mk.injEq] at kind
    rcases kind with ⟨-, rfl, -⟩ | ⟨-, rfl, -⟩ | ⟨-, rfl, -⟩ <;> decide
  have one : ∀ part ∈ ["False", "True", "End"], ∀ n,
      Named stems site.subroutine.label [] n (n + 1) [site.numberedLabel (stem ++ part) (n + 1)] :=
    fun part member n =>
      named_numbered known (legal part member) (Nat.lt_succ_self _) (Nat.le_refl _)
  rw [definedLabels_outcomeLines]
  have first := one "False" (by simp) labels
  have second := one "True" (by simp) (labels + 1)
  have third := one "End" (by simp) (labels + 2)
  exact first.append (second.append third (by omega) (by omega) (by simp)) (by omega) (by omega)
    (by simp)

theorem named_lowered {fragment : Fragment} {index : Nat} {instruction : Code.Instruction}
    {stack : Code.EvalStack} (copies : site.Copies stems)
    (lowered : Lowered site index labels instruction stack fragment) :
    labels ≤ fragment.labels ∧ Named stems site.subroutine.label [] labels fragment.labels
      (definedLabels fragment.code ++ definedLabels fragment.data) := by
  have plain := lowered_plain lowered
  cases lowered with
  | compare kind byte secondByte =>
    refine ⟨Nat.le_add_right _ _, ?_⟩
    have front : definedLabels (pullOperands ++ [.direct .cmp (Memory.temporary 0)]) = [] := rfl
    rw [definedLabels_append, front, List.nil_append]
    exact (named_outcome copies.own kind).perm (.of_eq (List.append_nil _))
  | call found made => exact named_called copies found (called_of_call made)
  | _ =>
    rcases plain (by grind) with ⟨-, instructions⟩ | ⟨more, -⟩
    · exact named_of_plain rfl instructions rfl
    · simp at more

theorem instructionLabel_eq (site : Site) (index : Nat) :
    site.instructionLabel index =
      Name.render { owner := site.subroutine.label, mark := .instruction index } := by
  apply String.toList_inj.mp
  simp [instructionLabel, Name.render, Mark.render]

theorem named_targets (known : site.subroutine.label ∈ stems) (targets : List Nat)
    {action : Action} (distinct : action.indices.Nodup) (low high : Nat) :
    Named stems site.subroutine.label action.indices low high
      (definedLabels (site.actionLabels targets action)) := by
  let name (index : Nat) : Name :=
    { owner := site.subroutine.label, mark := .instruction index }
  have defined : definedLabels (site.actionLabels targets action) =
      (action.indices.filter targets.contains).map site.instructionLabel := by
    rw [actionLabels, definedLabels, List.filterMap_map, ← List.filterMap_eq_map]
    rfl
  rw [defined]
  refine ⟨(action.indices.filter targets.contains).map name, .of_eq ?_, ?_, ?_⟩
  · rw [List.map_map]
    exact List.map_congr_left fun index _ => instructionLabel_eq site index
  · exact (distinct.filter _).map fun _ _ => instructionLabel_inj
  · intro named member
    obtain ⟨index, taken, rfl⟩ := List.mem_map.mp member
    exact ⟨⟨known, trivial, rfl, by simp [name]⟩, rfl,
      .inl ⟨index, (List.mem_filter.mp taken).1, rfl⟩⟩

/-- The names of a row: those of the instructions it takes in, and numbered ones. -/
theorem named_row (copies : site.Copies stems) {pieces : List (Action × Fragment)} {last : Nat}
    (row : site.Row labels pieces last)
    (distinct : ((pieces.map Prod.fst).flatMap Action.indices).Nodup) :
    labels ≤ last ∧ Named stems site.subroutine.label ((pieces.map Prod.fst).flatMap Action.indices)
      labels last (definedLabels (pieces.flatMap site.pieceCode) ++
        definedLabels (pieces.flatMap fun piece => piece.2.data)) := by
  induction row with
  | nil => exact ⟨Nat.le_refl _, named_nil⟩
  | @cons labels action fragment pieces last performed rest ih =>
    rw [List.map_cons, List.flatMap_cons, List.nodup_append] at distinct
    obtain ⟨distinctHere, distinctLater, apart⟩ := distinct
    obtain ⟨rises, later⟩ := ih distinctLater
    have here : labels ≤ fragment.labels ∧ Named stems site.subroutine.label [] labels
        fragment.labels (definedLabels fragment.code ++ definedLabels fragment.data) := by
      cases performed with
      | compiled found lowered => exact named_lowered copies lowered
      | executed evaluated => exact named_evaluated copies.own evaluated
    have targets := named_targets copies.own (Code.targets site.subroutine.instructions)
      distinctHere labels labels
    have piece := targets.append here.2 (Nat.le_refl _) here.1 (List.disjoint_nil_right _)
    rw [List.append_nil] at piece
    have joined := piece.append later here.1 rises fun index first second =>
      apart index first index second rfl
    refine ⟨Nat.le_trans here.1 rises, joined.perm ?_⟩
    simp only [List.flatMap_cons, pieceCode, definedLabels_append, List.append_assoc]
    exact .append_left _ (.append_left _ (List.perm_append_comm_assoc _ _ _))

theorem named_of_compile (copies : site.Copies stems) {body : Body}
    (compiled : site.compile = .ok body) :
    ∃ indices low high, Named stems site.subroutine.label indices low high (bodyLabels body) := by
  obtain ⟨pieces, last, row, indices, code, data⟩ := row_of_compile compiled
  have distinct : ((pieces.map Prod.fst).flatMap Action.indices).Nodup := by
    rw [indices]
    exact List.nodup_range
  rw [bodyLabels, code, data]
  exact ⟨_, 0, last, (named_row copies row distinct).2⟩

theorem copies_withBodies {types : TypeTable} {memory : Memory.Map} {bodies : Bodies}
    {subroutine : Subroutine} (wellFormed : types.WellFormed) (own : subroutine.label ∈ stems)
    (named : ∀ id callee body, types.subroutine? id = some callee → bodies id = some body →
      callee.intrinsic? = some .alwaysInline →
      ∃ indices low high, Named stems callee.label indices low high (bodyLabels body)) :
    Copies ⟨types.withBodies bodies, memory, subroutine⟩ stems := by
  refine ⟨own, ?_⟩
  intro id callee body found inline present
  rw [Program.subroutine?_withBodies, Option.map_eq_some_iff] at found
  obtain ⟨original, foundOriginal, rfl⟩ := found
  rw [Subroutine.body?_withBody, wellFormed.subroutineId id original foundOriginal] at present
  exact named id original body foundOriginal present inline

end Site

theorem named_of_compiles {types : TypeTable} {memory : Memory.Map} {library : Asm.Library}
    {optimize : Bool} {done : List SubroutineId} {bodies : Bodies} {stems : List Symbol}
    (wellFormed : types.WellFormed) (ran : Compiles types memory library optimize done bodies)
    (known : ∀ id ∈ done, ∀ subroutine, types.subroutine? id = some subroutine →
      subroutine.replacesCall = false → subroutine.label ∈ stems)
    {id : SubroutineId} {subroutine : Subroutine} {body : Body}
    (found : types.subroutine? id = some subroutine) (present : bodies id = some body)
    (own : ∀ implementation, subroutine.intrinsic? ≠ some (.useProvided implementation)) :
    ∃ indices low high, Named stems subroutine.label indices low high (bodyLabels body) := by
  refine ran.forall_body (motive := fun subroutine body =>
    (∀ implementation, subroutine.intrinsic? ≠ some (.useProvided implementation)) →
      ∃ indices low high, Named stems subroutine.label indices low high (bodyLabels body))
    wellFormed ?_ found present own
  intro subroutine body bodies found member kept before made own
  rcases subroutineBody_eq_ok kept made with
    ⟨implementation, marked, -⟩ | ⟨-, rfl⟩ | ⟨-, compiled, done, rfl⟩
  · exact absurd marked (own implementation)
  · exact ⟨[], 0, 0, named_nil⟩
  · rw [bodyLabels_optimizeBody]
    have copies : Site.Copies ⟨types.withBodies bodies, memory, subroutine⟩ stems := by
      refine Site.copies_withBodies wellFormed (known _ member subroutine found kept) ?_
      intro id callee body foundCallee bodied inline
      exact before id callee body foundCallee bodied (by simp [inline])
    exact Site.named_of_compile copies done

end Cartridge.Emit
