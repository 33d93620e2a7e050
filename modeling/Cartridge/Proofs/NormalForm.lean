import Cartridge.Proofs.Reduction
import Mathlib.Data.List.Chain
import Mathlib.Logic.Relation

/-!
The peephole rules as rewriting.

A step drops one redundant pair of neighbouring lines, or the load of one, anywhere in a listing.
The pass from left to right is made of such steps and leaves no pair to drop. What it writes does
not change when the listing was rewritten before, so it is also where steps in any other order end.
-/

namespace Cartridge.Asm.Peephole

open Relation (ReflTransGen)

/-- A listing with one redundancy less. -/
inductive Reduces : List Line → List Line → Prop
  | pushPull {push pull : Instruction} (front back : List Line) (pushes : push.mnemonic = .pha)
    (pulls : pull.mnemonic = .pla) :
    Reduces (front ++ .instruction push :: .instruction pull :: back) (front ++ back)
  | storeLoad {operand : Operand} (front back : List Line) (memory : operand.isMemory = true) :
    Reduces (front ++ .instruction ⟨.sta, operand⟩ :: .instruction ⟨.lda, operand⟩ :: back)
      (front ++ .instruction ⟨.sta, operand⟩ :: back)

theorem isPushPull_eq_true {first second : Line} :
    isPushPull first second = true ↔ ∃ push pull, first = .instruction push ∧
      second = .instruction pull ∧ push.mnemonic = .pha ∧ pull.mnemonic = .pla := by
  cases first <;> cases second <;> simp [isPushPull]

theorem isStoreLoad_eq_true {first second : Line} :
    isStoreLoad first second = true ↔ ∃ operand, operand.isMemory = true ∧
      first = .instruction ⟨.sta, operand⟩ ∧ second = .instruction ⟨.lda, operand⟩ := by
  constructor
  · intro redundant
    cases first <;> cases second <;> simp only [isStoreLoad, Bool.false_eq_true] at redundant
    next store load =>
      obtain ⟨mnemonic, operand⟩ := store
      obtain ⟨mnemonic', operand'⟩ := load
      simp only [Bool.and_eq_true, beq_iff_eq] at redundant
      obtain ⟨⟨⟨rfl, rfl⟩, memory⟩, rfl⟩ := redundant
      exact ⟨operand, memory, rfl, rfl⟩
  · rintro ⟨operand, memory, rfl, rfl⟩
    simp [isStoreLoad, memory]

theorem Reduces.append {lines next : List Line} (step : Reduces lines next) (more : List Line) :
    Reduces (lines ++ more) (next ++ more) := by
  cases step with
  | pushPull front back pushes pulls =>
    have wider := Reduces.pushPull front (back ++ more) pushes pulls
    simpa using wider
  | storeLoad front back memory =>
    have wider := Reduces.storeLoad front (back ++ more) memory
    simpa using wider

theorem Reduces.sublist {lines next : List Line} (step : Reduces lines next) :
    next.Sublist lines := by
  cases step with
  | pushPull front back pushes pulls =>
    exact (List.Sublist.refl front).append (((List.Sublist.refl back).cons _).cons _)
  | storeLoad front back memory =>
    exact (List.Sublist.refl front).append (((List.Sublist.refl back).cons _).cons_cons _)

/-- A step makes no difference to what the pass writes. -/
theorem Reduces.optimize_eq {lines next : List Line} (step : Reduces lines next) :
    optimize lines = optimize next := by
  cases step with
  | pushPull front back pushes pulls =>
    have redundant := isPushPull_eq_true.mpr ⟨_, _, rfl, rfl, pushes, pulls⟩
    simp only [optimize, List.foldl_append, List.foldl_cons, add_add_of_isPushPull redundant]
  | storeLoad front back memory =>
    have redundant := isStoreLoad_eq_true.mpr ⟨_, memory, rfl, rfl⟩
    simp only [optimize, List.foldl_append, List.foldl_cons, add_add_of_isStoreLoad redundant]

theorem optimize_eq_of_reduces {lines other : List Line}
    (steps : ReflTransGen Reduces lines other) : optimize lines = optimize other := by
  induction steps with
  | refl => rfl
  | tail _ step ih => exact ih.trans step.optimize_eq

/-- Adding a line that makes up a redundancy with the last one is a step. -/
theorem reduces_add (written : List Line) (line : Line) :
    ReflTransGen Reduces (written.reverse ++ [line]) (add written line).reverse := by
  cases written with
  | nil => exact .refl
  | cons last written =>
    rw [add, List.reverse_cons, List.append_assoc]
    split
    next redundant =>
      obtain ⟨push, pull, rfl, rfl, pushes, pulls⟩ := isPushPull_eq_true.mp redundant
      have step := Reduces.pushPull written.reverse [] pushes pulls
      rw [List.append_nil] at step
      exact .single step
    next =>
      split
      next redundant =>
        obtain ⟨operand, memory, rfl, rfl⟩ := isStoreLoad_eq_true.mp redundant
        rw [List.reverse_cons]
        exact .single (.storeLoad written.reverse [] memory)
      next =>
        rw [List.reverse_cons, List.reverse_cons, List.append_assoc]

theorem reduces_optimize (lines : List Line) : ReflTransGen Reduces lines (optimize lines) := by
  induction lines using List.reverseRecOn with
  | nil => exact .refl
  | append_singleton lines line ih =>
    have before : ReflTransGen Reduces (lines ++ [line]) (optimize lines ++ [line]) :=
      ih.lift (· ++ [line]) fun _ _ step => step.append [line]
    rw [optimize_concat]
    exact before.trans (reduces_add (lines.foldl add []) line)

/-- Lines, the newest first, of which no two neighbours are redundant. -/
def Settled (written : List Line) : Prop :=
  written.IsChain fun line last => isPushPull last line = false ∧ isStoreLoad last line = false

theorem Settled.add {written : List Line} (settled : Settled written) (line : Line) :
    Settled (Peephole.add written line) := by
  cases written with
  | nil => exact .singleton line
  | cons last written =>
    rw [Peephole.add]
    split
    next => exact settled.tail
    next kept =>
      split
      next => exact settled
      next stays => exact .cons_cons ⟨by simpa using kept, by simpa using stays⟩ settled

theorem settled_foldl_add (lines : List Line) {written : List Line} (settled : Settled written) :
    Settled (lines.foldl add written) := by
  induction lines generalizing written with
  | nil => exact settled
  | cons line lines ih => exact ih (settled.add line)

theorem Settled.not_reduces {written next : List Line} (settled : Settled written) :
    ¬Reduces written.reverse next := by
  intro step
  have chain := List.isChain_reverse.mpr settled
  generalize written.reverse = lines at step chain
  cases step with
  | pushPull front back pushes pulls =>
    obtain ⟨-, ⟨kept, -⟩, -⟩ := List.isChain_append_cons_cons.mp chain
    rw [isPushPull_eq_true.mpr ⟨_, _, rfl, rfl, pushes, pulls⟩] at kept
    contradiction
  | storeLoad front back memory =>
    obtain ⟨-, ⟨-, kept⟩, -⟩ := List.isChain_append_cons_cons.mp chain
    rw [isStoreLoad_eq_true.mpr ⟨_, memory, rfl, rfl⟩] at kept
    contradiction

theorem not_reduces_optimize (lines next : List Line) : ¬Reduces (optimize lines) next :=
  (settled_foldl_add lines .nil).not_reduces

theorem optimize_of_irreducible {lines : List Line} (normal : ∀ next, ¬Reduces lines next) :
    optimize lines = lines := by
  rcases (reduces_optimize lines).cases_head with same | ⟨next, step, -⟩
  · exact same.symm
  · exact absurd step (normal next)

/-- The pass ends in the one listing without redundancies that the rules lead to, and so makes no
difference when it has been over a part before. -/
theorem optimize_normal_form (lines : List Line) :
    ReflTransGen Reduces lines (optimize lines) ∧ (∀ next, ¬Reduces (optimize lines) next) ∧
      (∀ normal, ReflTransGen Reduces lines normal → (∀ next, ¬Reduces normal next) →
        normal = optimize lines) ∧
      optimize (optimize lines) = optimize lines ∧
      ∀ front back,
        optimize (front ++ lines ++ back) = optimize (front ++ optimize lines ++ back) := by
  have idempotent := optimize_of_irreducible (not_reduces_optimize lines)
  refine ⟨reduces_optimize lines, not_reduces_optimize lines, ?_, idempotent, ?_⟩
  · intro normal steps irreducible
    rw [optimize_eq_of_reduces steps, optimize_of_irreducible irreducible]
  · intro front back
    have inside := optimize_append_congr (rfl : optimize front = optimize front) idempotent
    exact optimize_append_congr inside.symm rfl

-- Dropping a pair makes neighbours of a store and its load.
example : optimize [.direct .sta "X", .op .pha, .op .pha, .op .pla, .op .pla, .direct .lda "X"] =
    [.direct .sta "X"] := by
  decide

end Cartridge.Asm.Peephole
