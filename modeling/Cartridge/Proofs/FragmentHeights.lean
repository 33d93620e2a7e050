import Cartridge.Proofs.BodyNames
import Cartridge.Proofs.Heights
import Cartridge.Proofs.StackTracking

/-!
How many bytes the code of an instruction leaves pushed.

What code pulls for a value is what it takes the value's size to be. For most instructions the
compiler compares that with the size it tracks for the value. It does not where a value is stored,
passed or returned. Where these sizes fit too, the code of an instruction pulls no more than the
tracked stack holds and leaves at least what is tracked behind it.
-/

namespace Cartridge.Emit

open Asm
open Code (EvalStack StackTracker)
open Program (Body Subroutine)

namespace Site

/-- The bytes that an instruction pulls for each value it takes, the topmost first, where nobody has
compared them with the value. -/
def drawn (site : Site) (instruction : Code.Instruction) : List Nat :=
  match instruction.opcode with
  | .storeLocal | .storeArgument | .storeStaticField =>
    ((site.slot? instruction.operand).map (·.2.size)).toList
  | .storeField => ((site.member? instruction.operand).map (·.1.size)).toList
  | .call =>
    match instruction.callee?.bind site.types.subroutine? with
    | some callee =>
      if callee.replacesCall then [] else callee.parameters.reverse.map ValueType.size
    | none => []
  | .ret => [site.subroutine.returns.size]
  | _ => []

/-- Whether the values on a stack are as large as an instruction takes them to be. -/
def covers (site : Site) (instruction : Code.Instruction) (stack : EvalStack) : Bool :=
  ((site.drawn instruction).zip stack).all fun (size, type) => size ≤ type.size

section Fragments

variable {site : Site} {arrives : Symbol → Nat → Prop} {index labels n k m : Nat}
  {stack rest : EvalStack} {fragment : Fragment} {instruction : Code.Instruction}
  {callee : Subroutine}

theorem bytes_cons (type : ValueType) (stack : EvalStack) :
    EvalStack.bytes (type :: stack) = stack.bytes + type.size :=
  Nat.add_comm type.size stack.bytes

theorem rises_loadLines (symbol : Symbol) (size : Nat) :
    Rises arrives false n (loadLines symbol size) (n + size) := by
  apply Rises.of_climb?
  rw [loadLines, climb?_pushes fun _ _ => rfl, List.length_range]

theorem rises_storeLines (symbol : Symbol) {size : Nat} (enough : size ≤ n) :
    Rises arrives false n (storeLines symbol size) (n - size) := by
  apply Rises.of_climb?
  obtain ⟨low, rfl⟩ := Nat.exists_eq_add_of_le' enough
  have pulled := @climb?_pulls _ (List.range size).reverse
    (fun k => [.op .pla, .on .sta .direct (Value.byteOf symbol k size)]) (fun _ _ => rfl) low
  rw [List.length_reverse, List.length_range] at pulled
  rw [Nat.add_sub_cancel]
  exact pulled

theorem rises_storeArguments {arguments : List (ValueType × Nat)}
    {passed : List Line × EvalStack}
    (stored : site.storeArguments index callee arguments stack = .ok passed)
    (covered : ((arguments.map (·.1.size)).zip stack).all (fun (size, type) => size ≤ type.size) =
      true) :
    Rises arrives false stack.bytes passed.1 passed.2.bytes := by
  induction arguments generalizing stack passed with
  | nil =>
    obtain rfl := Except.ok.inj stored
    exact .nil (Nat.le_refl _)
  | cons argument arguments ih =>
    obtain ⟨⟨top, rest⟩, popped, next⟩ := bind_eq_ok.mp stored
    obtain rfl := pop_eq_ok.mp popped
    simp only at next
    split at next
    next => contradiction
    next allocation found =>
      obtain ⟨⟨code, below⟩, storedRest, made⟩ := bind_eq_ok.mp next
      obtain rfl := pure_eq_ok.mp made
      simp only [List.map_cons, List.zip_cons_cons, List.all_cons, Bool.and_eq_true,
        decide_eq_true_eq] at covered
      have first : Rises arrives false (EvalStack.bytes (top :: rest))
          (storeLines allocation.symbol argument.1.size) rest.bytes := by
        rw [bytes_cons]
        refine (rises_storeLines allocation.symbol (by omega)).lower ?_
        omega
      exact first.append (ih storedRest covered.2)

theorem rises_evaluate {call : Nat} {evaluator : Source.Evaluator} {bytes : List UInt8}
    (made : site.evaluate call labels stack callee evaluator bytes = .ok fragment) :
    Rises arrives false stack.bytes fragment.code fragment.stack.bytes := by
  unfold evaluate at made
  split at made
  next byte =>
    split at made
    next => contradiction
    next single =>
      obtain rfl := Except.ok.inj made
      apply Rises.of_climb?
      rw [bytes_cons, ValueType.size, Decidable.not_not.mp single]
      rfl
  next => contradiction
  next =>
    obtain rfl := Except.ok.inj made
    apply Rises.of_climb?
    rw [bytes_cons, ValueType.size]
    rfl

/-- Code that may be arrived at from elsewhere and jumps to labels of its own besides. -/
def Climbs (arrives : Symbol → Nat → Prop) (n : Nat) (code : List Line) (m : Nat) : Prop :=
  ∃ own : Symbol → Nat → Prop, (∀ symbol k, own symbol k → symbol ∈ definedLabels code) ∧
    Rises (fun symbol k => arrives symbol k ∨ own symbol k) false n code m

theorem climbs_of_rises {code : List Line} (rises : Rises arrives false n code m) :
    Climbs arrives n code m := by
  refine ⟨fun _ _ => False, fun _ _ nowhere => nowhere.elim, ?_⟩
  exact rises.weaken (fun _ _ => .inl) fun _ _ there => .inl (there.resolve_right id)

theorem climbs_of_climb? {code : List Line} {top : Nat} (climbs : climb? code n = some top)
    (enough : m ≤ top) : Climbs arrives n code m :=
  climbs_of_rises ((Rises.of_climb? climbs).lower enough)

theorem Climbs.append {front rest : List Line} (first : Climbs arrives n front k)
    (second : Climbs arrives k rest m)
    (apart : ∀ symbol ∈ definedLabels front, symbol ∉ definedLabels rest) :
    Climbs arrives n (front ++ rest) m := by
  obtain ⟨own, mine, rises⟩ := first
  obtain ⟨other, theirs, follows⟩ := second
  let both (symbol : Symbol) (k : Nat) : Prop := arrives symbol k ∨ own symbol k ∨ other symbol k
  have before : Rises both false n front k := by
    refine rises.weaken (fun _ _ there => there.imp_right .inl) ?_
    rintro symbol k (there | there | there)
    · exact .inl (.inl there)
    · exact .inl (.inr there)
    · exact .inr fun defined => apart symbol defined (theirs symbol k there)
  have behind : Rises both false k rest m := by
    refine follows.weaken (fun _ _ there => there.imp_right .inr) ?_
    rintro symbol k (there | there | there)
    · exact .inl (.inl there)
    · exact .inr (apart symbol (mine symbol k there))
    · exact .inl (.inr there)
  refine ⟨fun symbol k => own symbol k ∨ other symbol k, ?_, before.append behind⟩
  intro symbol k there
  rw [definedLabels_append]
  exact List.mem_append.mpr (there.imp (mine symbol k) (theirs symbol k))

/-- What is copied in place of a call. -/
def Copied (site : Site) (labels : Nat) (callee : Subroutine) : Prop :=
  ∀ body, callee.intrinsic? = some .alwaysInline → callee.body? = some body → Tidy body.code ∧
    (∃ called, Controlled (fun _ => False) called body) ∧
    (definedLabels (splice (site.numberedLabel "Inline" (labels + 1)) body).code).Nodup

theorem climbs_transfer (copied : site.Copied labels callee)
    (foreign : ∀ symbol k, arrives symbol k → symbol ∉ definedLabels fragment.code)
    (made : site.transfer labels stack callee = .ok fragment) :
    Climbs arrives n fragment.code n := by
  unfold transfer at made
  split at made
  next inline =>
    split at made
    next => contradiction
    next body present =>
      obtain rfl := Except.ok.inj made
      obtain ⟨tidy, ⟨called, controlled⟩, distinct⟩ := copied body inline present
      obtain ⟨own, defined, rises⟩ := rises_splice tidy controlled distinct n
      refine ⟨own, defined, rises.weaken (fun _ _ there => .inr there) fun symbol k there => ?_⟩
      exact there.symm.imp_right (foreign symbol k)
  next =>
    obtain rfl := Except.ok.inj made
    exact climbs_of_climb? rfl (Nat.le_refl n)

theorem climbs_callBody (copied : site.Copied labels callee)
    (covered : ((callee.parameters.reverse.map ValueType.size).zip stack).all
      (fun (size, type) => size ≤ type.size) = true)
    (foreign : ∀ symbol k, arrives symbol k → symbol ∉ definedLabels fragment.code)
    (made : site.callBody index labels stack callee = .ok fragment) :
    Climbs arrives stack.bytes fragment.code fragment.stack.bytes := by
  unfold callBody at made
  split at made
  next => contradiction
  next narrow =>
    obtain ⟨⟨passing, below⟩, stored, next⟩ := bind_eq_ok.mp made
    obtain ⟨transferred, moved, last⟩ := bind_eq_ok.mp next
    have sizes : callee.parameters.zipIdx.reverse.map (·.1.size) =
        callee.parameters.reverse.map ValueType.size := by
      have unnumbered :=
        congrArg (List.map ValueType.size) (List.zipIdx_map_fst 0 callee.parameters)
      rw [List.map_map] at unnumbered
      rw [List.map_reverse, List.map_reverse, ← unnumbered]
      rfl
    have passes : Climbs arrives stack.bytes passing below.bytes :=
      climbs_of_rises (rises_storeArguments stored (by rwa [sizes]))
    have unlabelled : definedLabels passing = [] :=
      definedLabels_eq_nil (isInstruction_of_passes (passes_of_storeArguments stored))
    have kept := transfer_stack moved
    have inside : ∀ symbol ∈ definedLabels transferred.code,
        symbol ∈ definedLabels fragment.code := by
      intro symbol member
      split at last <;> obtain rfl := pure_eq_ok.mp last <;>
        simp [definedLabels_append, member]
    have moves : Climbs arrives below.bytes transferred.code below.bytes :=
      climbs_transfer copied (fun symbol k there member =>
        foreign symbol k there (inside symbol member)) moved
    have goes := passes.append moves (by simp [unlabelled])
    split at last
    next =>
      obtain rfl := pure_eq_ok.mp last
      rw [kept]
      exact goes
    next =>
      obtain rfl := pure_eq_ok.mp last
      refine goes.append (climbs_of_climb? rfl ?_) fun _ _ => List.not_mem_nil
      rw [bytes_cons]
      omega

theorem climbs_call {id : SubroutineId} (found : site.types.subroutine? id = some callee)
    (unexecuted : ∀ evaluator, callee.intrinsic? ≠ some (.compileTime evaluator))
    (narrow : ∀ symbol, callee.intrinsic? = some (.loadFromSymbol symbol) → callee.returns.size = 1)
    (drawn : site.covers ⟨.call, .method id⟩ stack = true) (copied : site.Copied labels callee)
    (foreign : ∀ symbol k, arrives symbol k → symbol ∉ definedLabels fragment.code)
    (made : site.call index labels stack callee = .ok fragment) :
    Climbs arrives stack.bytes fragment.code fragment.stack.bytes := by
  unfold call at made
  split at made
  next =>
    obtain rfl := Except.ok.inj made
    exact climbs_of_climb? rfl (Nat.le_refl _)
  next =>
    obtain ⟨rest, popped, last⟩ := bind_eq_ok.mp made
    obtain ⟨top, rfl, byte⟩ := popByte_eq_ok.mp popped
    obtain rfl := pure_eq_ok.mp last
    rw [bytes_cons, byte]
    exact climbs_of_climb? rfl (Nat.le_refl _)
  next register _ =>
    obtain ⟨rest, popped, last⟩ := bind_eq_ok.mp made
    obtain ⟨top, rfl, byte⟩ := popByte_eq_ok.mp popped
    obtain rfl := pure_eq_ok.mp last
    rw [bytes_cons, byte]
    cases register <;> exact climbs_of_climb? rfl (Nat.le_refl _)
  next symbol marked =>
    obtain rfl := Except.ok.inj made
    rw [bytes_cons, narrow symbol marked]
    exact climbs_of_climb? rfl (Nat.le_refl _)
  next evaluator executes => exact absurd executes (unexecuted evaluator)
  next strobed stored toRegister loaded executed =>
    have kept := replacesCall_eq_false strobed stored toRegister loaded executed
    refine climbs_callBody copied ?_ foreign made
    simpa [covers, Site.drawn, Code.Instruction.callee?, found, kept] using drawn

theorem rises_branches {branches : List (Mnemonic × Bool)} (target : Bool → Symbol)
    (jumps : ∀ branch ∈ branches, branch.1.isJump = true)
    (there : ∀ outcome, arrives (target outcome) n) :
    Rises arrives false n (branches.map fun branch => .direct branch.1 (target branch.2)) n := by
  induction branches with
  | nil => exact .nil (Nat.le_refl n)
  | cons branch branches ih =>
    have here := jumps branch List.mem_cons_self
    refine .cons (.jump here (there _) (Nat.le_refl n) fun _ => Nat.le_refl n) ?_
    rw [Line.holds_of_isJump here]
    exact ih fun other member => jumps other (List.mem_cons_of_mem _ member)

/-- All ways through a comparison come together with both operands pulled. -/
theorem climbs_outcomeLines {stem : String} {branches : List (Mnemonic × Bool)}
    (jumps : ∀ branch ∈ branches, branch.1.isJump = true)
    (foreign : ∀ symbol k, arrives symbol k →
      symbol ∉ definedLabels (site.outcomeLines stem branches labels)) :
    Climbs arrives n (site.outcomeLines stem branches labels) (n + 1) := by
  refine ⟨fun symbol k => symbol ∈ definedLabels (site.outcomeLines stem branches labels) ∧ k = n,
    fun _ _ there => there.1, ?_⟩
  have meets : ∀ symbol ∈ definedLabels (site.outcomeLines stem branches labels), ∀ k,
      (arrives symbol k ∨ symbol ∈ definedLabels (site.outcomeLines stem branches labels) ∧ k = n) →
      n ≤ k := by
    rintro symbol own k (there | ⟨-, rfl⟩)
    · exact absurd own (foreign symbol k there)
    · exact Nat.le_refl k
  rw [definedLabels_outcomeLines] at meets ⊢
  refine (rises_branches (fun outcome => if outcome then site.numberedLabel (stem ++ "True")
    (labels + 2) else site.numberedLabel (stem ++ "False") (labels + 1)) jumps ?_).append ?_
  · intro outcome
    refine .inr ⟨?_, rfl⟩
    cases outcome <;> simp
  · refine .cons (.label (Nat.le_refl n) (meets _ (by simp))) ?_
    refine .cons (.climb rfl (Nat.le_refl n)) ?_
    refine .cons (.jump rfl (.inr ⟨by simp, rfl⟩) (Nat.le_refl n) fun _ => Nat.le_refl n) ?_
    refine .cons (.label (Nat.le_refl n) (meets _ (by simp))) ?_
    refine .cons (.climb rfl (Nat.le_refl n)) ?_
    refine .cons (.label (Nat.le_refl n) (meets _ (by simp))) ?_
    exact .cons (.climb rfl (Nat.le_refl _)) (.nil (Nat.le_refl _))

theorem climbs_storeField {size offset : Nat} {code : List Line} {top second : ValueType}
    (lines : site.storeFieldLines index size offset = .ok code) (enough : size ≤ top.size)
    (address : second.size = 1) :
    Climbs arrives (EvalStack.bytes (top :: second :: stack)) code stack.bytes := by
  rw [bytes_cons, bytes_cons, address]
  rcases storeFieldLines_eq_ok lines with ⟨rfl, rfl⟩ | ⟨rfl, rfl⟩ | ⟨-, near, rfl⟩
  · apply climbs_of_rises
    exact (Rises.of_climb? (n := stack.bytes + 1) rfl).raise (Nat.le_add_right _ _)
  · apply climbs_of_rises
    exact (Rises.of_climb? (n := stack.bytes + 2) rfl).raise (by omega)
  · have depth : (UInt8.ofNat (size + 1)).toNat = size + 1 :=
      UInt8.toNat_ofNat_of_lt' (Nat.lt_succ_of_le near)
    have pulled := @climb?_pulls _ (List.range size).reverse
      (fun k => [.op .pla, .on .sta .indexedX (indexedByte (offset + k))]) (fun _ _ => rfl)
      (stack.bytes + 1)
    rw [List.length_reverse, List.length_range] at pulled
    have bytes : Rises arrives false (stack.bytes + 1 + top.size)
        (((List.range size).reverse.flatMap fun k =>
          [Line.op .pla, .on .sta .indexedX (indexedByte (offset + k))]) ++ [.op .pla])
        stack.bytes := by
      refine Rises.raise (.of_climb? ?_) (Nat.add_le_add_left enough _)
      rw [climb?_append, pulled]
      rfl
    have within : (UInt8.ofNat (size + 1)).toNat ≤ stack.bytes + 1 + top.size := by omega
    rw [List.append_assoc]
    apply climbs_of_rises
    refine .cons (.take (Nat.le_refl _)) ?_
    refine .cons (.peek (by omega) within (Nat.le_refl _)) ?_
    refine .cons (.move (Nat.le_refl _)) ?_
    exact .cons (.give (Nat.le_refl _)) bytes

theorem climbs_lowered (unexecuted : executedCallee? site.types instruction = none)
    (narrow : site.types.LoadsBytes)
    (covered : site.covers instruction stack = true)
    (copied : ∀ id callee, instruction.callee? = some id →
      site.types.subroutine? id = some callee → site.Copied labels callee)
    (jumps : ∀ target, instruction.branchTarget? = some target →
      arrives (site.instructionLabel target) fragment.stack.bytes)
    (foreign : ∀ symbol k, arrives symbol k → symbol ∉ definedLabels fragment.code)
    (lowered : Lowered site index labels instruction stack fragment) :
    Climbs arrives stack.bytes fragment.code fragment.stack.bytes := by
  have drawn := covered
  unfold covers at drawn
  cases lowered with
  | nop => exact climbs_of_climb? rfl (Nat.le_refl _)
  | constant fits =>
    rw [bytes_cons]
    exact climbs_of_climb? rfl (Nat.le_refl _)
  | @load _ _ allocation type _ loads slot =>
    rw [bytes_cons]
    exact climbs_of_rises (rises_loadLines allocation.symbol type.size)
  | @store opcode operand allocation type top rest stores slot =>
    have enough : type.size ≤ top.size := by
      simp only [List.mem_cons, List.not_mem_nil, or_false] at stores
      rcases stores with rfl | rfl | rfl <;> simpa [Site.drawn, slot] using drawn
    rw [bytes_cons]
    refine climbs_of_rises ((rises_storeLines allocation.symbol (by omega)).lower ?_)
    dsimp only
    omega
  | staticAddress slot near =>
    rw [bytes_cons, ValueType.size]
    exact climbs_of_climb? rfl (Nat.le_refl _)
  | @loadField _ type offset _ _ member reach address =>
    rw [bytes_cons, bytes_cons, address]
    refine climbs_of_rises (Rises.append (k := EvalStack.bytes _) (.of_climb? rfl) ?_)
    apply Rises.of_climb?
    rw [climb?_pushes fun _ _ => rfl, List.length_range]
  | @fieldAddress _ type offset _ _ member reach address =>
    rw [bytes_cons, bytes_cons, address, ValueType.size]
    by_cases still : offset = 0
    · simp only [still, ↓reduceIte]
      exact climbs_of_climb? rfl (Nat.le_refl _)
    · simp only [still, ↓reduceIte]
      exact climbs_of_climb? rfl (Nat.le_refl _)
  | storeField member reach address lines =>
    refine climbs_storeField lines ?_ address
    simpa [Site.drawn, member] using drawn
  | @initObject type _ rest reach address =>
    rw [bytes_cons, address]
    refine climbs_of_rises (Rises.of_climb? ?_)
    rw [climb?_append]
    exact climb?_map (fun _ _ => rfl) (EvalStack.bytes rest)
  | arithmetic kind byte secondByte =>
    rw [bytes_cons, bytes_cons, bytes_cons, byte, secondByte]
    simp only [List.mem_cons, List.not_mem_nil, or_false, Prod.mk.injEq] at kind
    rcases kind with ⟨-, rfl, rfl⟩ | ⟨-, rfl, rfl⟩ <;> exact climbs_of_climb? rfl (Nat.le_refl _)
  | @compare _ _ stem branches _ _ _ kind byte secondByte =>
    rw [bytes_cons, bytes_cons, bytes_cons, byte, secondByte]
    have unlabelled : definedLabels (pullOperands ++ [.direct .cmp (Memory.temporary 0)]) = [] :=
      rfl
    refine Climbs.append (k := EvalStack.bytes _) (climbs_of_climb? rfl (Nat.le_refl _))
      (climbs_outcomeLines ?_ ?_) (by simp [unlabelled])
    · simp only [List.mem_cons, List.not_mem_nil, or_false, Prod.mk.injEq] at kind
      rcases kind with ⟨-, -, rfl⟩ | ⟨-, -, rfl⟩ | ⟨-, -, rfl⟩ <;> decide
    · intro symbol k there own
      refine foreign symbol k there ?_
      rw [definedLabels_append]
      exact List.mem_append_right _ own
  | convert byte =>
    rw [bytes_cons, bytes_cons, byte]
    exact climbs_of_climb? rfl (Nat.le_refl _)
  | duplicateEmpty empty =>
    refine climbs_of_climb? rfl ?_
    rw [bytes_cons, empty]
    exact Nat.le_refl _
  | duplicate byte =>
    simp only [bytes_cons, byte]
    exact climbs_of_climb? rfl (Nat.le_refl _)
  | @discard _ top rest =>
    have pulled := @climb?_pulls _ (List.range top.size) (fun _ => [.op .pla]) (fun _ _ => rfl)
      (EvalStack.bytes rest)
    rw [← List.map_eq_flatMap, List.map_const', List.length_range] at pulled
    rw [bytes_cons]
    exact climbs_of_climb? pulled (Nat.le_refl _)
  | @branch target _ =>
    refine climbs_of_rises (.cons ?_ (.nil (Nat.le_refl _)))
    exact .jump rfl (jumps target rfl) (Nat.le_refl _) fun _ => Nat.le_refl _
  | @branchOn opcode mnemonic target top rest kind byte =>
    rw [bytes_cons, byte]
    have isJump : mnemonic.isJump = true := by
      simp only [List.mem_cons, List.not_mem_nil, or_false, Prod.mk.injEq] at kind
      rcases kind with ⟨-, rfl⟩ | ⟨-, rfl⟩ <;> rfl
    have branches : Code.Instruction.branchTarget? ⟨opcode, .target target⟩ = some target := by
      simp only [List.mem_cons, List.not_mem_nil, or_false, Prod.mk.injEq] at kind
      rcases kind with ⟨rfl, -⟩ | ⟨rfl, -⟩ <;> rfl
    have jumped : Rises arrives false (EvalStack.bytes rest)
        [.direct mnemonic (site.instructionLabel target)] (EvalStack.bytes rest) := by
      refine .cons (.jump isJump (jumps target branches) (Nat.le_refl _) fun _ => Nat.le_refl _) ?_
      rw [Line.holds_of_isJump isJump]
      exact .nil (Nat.le_refl _)
    exact climbs_of_rises (.cons (.climb rfl (Nat.le_refl _)) jumped)
  | call found made =>
    have unmarked := executedCallee?_eq_none unexecuted found
    exact climbs_call found unmarked (fun symbol => narrow _ _ symbol found) covered
      (copied _ _ rfl found) foreign made
  | ret empty => exact climbs_of_rises (.cons (.ret rfl) (.nil (Nat.le_refl _)))
  | @retByte _ top rest byte =>
    have enough : 1 ≤ top.size := by simpa [Site.drawn, byte] using drawn
    have returned : Rises arrives false (EvalStack.bytes rest) [.op .rts] (EvalStack.bytes rest) :=
      .cons (.ret rfl) (.nil (Nat.le_refl _))
    rw [bytes_cons]
    apply climbs_of_rises
    exact Rises.raise (.cons (n := EvalStack.bytes rest + 1) (.climb rfl (Nat.le_refl _)) returned)
      (by omega)

end Fragments

end Site

end Cartridge.Emit
