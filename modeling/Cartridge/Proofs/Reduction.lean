import Cartridge.Proofs.Splicing
import Mathlib.Data.List.Induction

/-!
The peephole rules on parts of code.

A line that starts a redundant pair never ends one. So what is dropped from a part may as well be
dropped after the part was put into its place, and even after its lines were changed there, as long
as pairs that were redundant stay so. Copies of a body are such a change.
-/

namespace Cartridge.Asm.Peephole

/-- A change of single lines that keeps redundant pairs redundant. -/
structure Preserves (change : Line → Line) : Prop where
  pushPull : ∀ {first second : Line}, isPushPull first second = true →
    isPushPull (change first) (change second) = true
  storeLoad : ∀ {first second : Line}, isStoreLoad first second = true →
    isStoreLoad (change first) (change second) = true

/-- Only pulls and loads are ever dropped for what stands before them. -/
theorem add_eq_cons {line : Line} (pulls : line.mnemonic? ≠ some .pla)
    (loads : line.mnemonic? ≠ some .lda) (written : List Line) :
    add written line = line :: written := by
  cases written with
  | nil => rfl
  | cons last written =>
    have kept : isPushPull last line = false := by
      by_contra redundant
      exact pulls (mnemonics_of_isPushPull (by simpa using redundant)).2
    have stays : isStoreLoad last line = false := by
      by_contra redundant
      exact loads (mnemonics_of_isStoreLoad (by simpa using redundant)).2
    simp [add, kept, stays]

theorem add_add_of_isPushPull {first second : Line} (redundant : isPushPull first second = true)
    (written : List Line) : add (add written first) second = written := by
  have push := (mnemonics_of_isPushPull redundant).1
  have written_first : add written first = first :: written :=
    add_eq_cons (by simp [push]) (by simp [push]) written
  rw [written_first]
  simp [add, redundant]

theorem add_add_of_isStoreLoad {first second : Line} (redundant : isStoreLoad first second = true)
    (written : List Line) : add (add written first) second = add written first := by
  have store := (mnemonics_of_isStoreLoad redundant).1
  have apart : isPushPull first second = false := by
    by_contra pushes
    have push := (mnemonics_of_isPushPull (by simpa using pushes)).1
    simp [store] at push
  have written_first : add written first = first :: written :=
    add_eq_cons (by simp [store]) (by simp [store]) written
  rw [written_first]
  simp [add, apart, redundant]

theorem optimize_concat (lines : List Line) (line : Line) :
    optimize (lines ++ [line]) = (add (lines.foldl add []) line).reverse := by
  rw [optimize, List.foldl_append, List.foldl_cons, List.foldl_nil]

/-- Dropping lines from a part that is then changed makes no difference to what is written behind
others in the end. -/
theorem foldl_add_map_optimize {change : Line → Line} (preserves : Preserves change)
    (lines written : List Line) :
    ((optimize lines).map change).foldl add written = (lines.map change).foldl add written := by
  induction lines using List.reverseRecOn with
  | nil => rfl
  | append_singleton lines line ih =>
    rw [optimize_concat, List.map_append, List.foldl_append, ← ih, optimize]
    cases lines.foldl add [] with
    | nil => rfl
    | cons last kept =>
      have last_written : ((last :: kept).reverse.map change).foldl add written =
          add ((kept.reverse.map change).foldl add written) (change last) := by
        rw [List.reverse_cons, List.map_append, List.foldl_append]
        rfl
      have line_written : ([line].map change).foldl add
          (((last :: kept).reverse.map change).foldl add written) =
            add (((last :: kept).reverse.map change).foldl add written) (change line) := rfl
      rw [line_written, add]
      split
      next redundant =>
        rw [last_written, add_add_of_isPushPull (preserves.pushPull redundant)]
      next =>
        split
        next redundant =>
          rw [last_written, add_add_of_isStoreLoad (preserves.storeLoad redundant)]
        next => rw [List.reverse_cons, List.map_append, List.foldl_append, ← line_written]

theorem foldl_add_optimize (lines written : List Line) :
    (optimize lines).foldl add written = lines.foldl add written := by
  have preserves : Preserves id := ⟨id, id⟩
  simpa using foldl_add_map_optimize preserves lines written

theorem optimize_map_optimize {change : Line → Line} (preserves : Preserves change)
    (lines : List Line) : optimize ((optimize lines).map change) = optimize (lines.map change) := by
  rw [optimize, foldl_add_map_optimize preserves, optimize]

/-- Code that reduces alike may be exchanged inside of other code. -/
theorem optimize_append_congr {first second more rest : List Line}
    (front : optimize first = optimize second) (back : optimize more = optimize rest) :
    optimize (first ++ more) = optimize (second ++ rest) := by
  have written : first.foldl add [] = second.foldl add [] := List.reverse_injective front
  rw [optimize, List.foldl_append, ← foldl_add_optimize more, back, foldl_add_optimize, written,
    ← List.foldl_append, optimize]

theorem any_add {property : Line → Bool}
    (spared : ∀ line, line.mnemonic? = some .pha ∨ line.mnemonic? = some .pla ∨
      line.mnemonic? = some .lda → property line = false)
    (written : List Line) (line : Line) :
    (add written line).any property = (line :: written).any property := by
  cases written with
  | nil => rfl
  | cons last written =>
    simp only [add]
    split
    next redundant =>
      obtain ⟨push, pull⟩ := mnemonics_of_isPushPull redundant
      simp [spared last (.inl push), spared line (.inr (.inl pull))]
    next =>
      split
      next redundant =>
        have load := (mnemonics_of_isStoreLoad redundant).2
        simp [spared line (.inr (.inr load))]
      next => rfl

/-- Lines that no rule drops are there afterwards if they were there before. -/
theorem any_optimize {property : Line → Bool}
    (spared : ∀ line, line.mnemonic? = some .pha ∨ line.mnemonic? = some .pla ∨
      line.mnemonic? = some .lda → property line = false)
    (lines : List Line) : (optimize lines).any property = lines.any property := by
  induction lines using List.reverseRecOn with
  | nil => rfl
  | append_singleton lines line ih =>
    rw [optimize_concat, List.any_reverse, any_add spared, List.any_append, ← ih, optimize,
      List.any_reverse, List.any_cons, Bool.or_comm]
    simp

end Cartridge.Asm.Peephole

namespace Cartridge.Emit

open Asm
open Peephole (Preserves optimize)
open Program (Body)

theorem isMemory_mapValue (change : Value → Value) (operand : Operand) :
    (operand.mapValue change).isMemory = operand.isMemory := by
  cases operand with
  | implied => rfl
  | addressed mode value => cases mode <;> rfl

theorem preserves_relabel (rename : Symbol → Symbol) : Preserves (relabel rename) := by
  constructor
  · intro first second redundant
    cases first <;> cases second <;> simp_all [Peephole.isPushPull, relabel]
  · intro first second redundant
    cases first <;> cases second <;>
      simp only [Peephole.isStoreLoad, Bool.false_eq_true] at redundant
    simp only [relabel, Peephole.isStoreLoad, Bool.and_eq_true, beq_iff_eq, isMemory_mapValue]
      at redundant ⊢
    exact ⟨redundant.1, by rw [redundant.2]⟩

theorem spliceLine_of_mnemonic {line : Line} {mnemonic : Mnemonic}
    (found : line.mnemonic? = some mnemonic) (apart : mnemonic ≠ .rts) (place : Symbol)
    (rename : Symbol → Symbol) : spliceLine place rename line = relabel rename line := by
  rw [spliceLine, if_neg (by simp [isReturn, found, apart])]

theorem preserves_spliceLine (place : Symbol) (rename : Symbol → Symbol) :
    Preserves (spliceLine place rename) := by
  have relabelled := preserves_relabel rename
  constructor
  · intro first second redundant
    obtain ⟨push, pull⟩ := Peephole.mnemonics_of_isPushPull redundant
    rw [spliceLine_of_mnemonic push (by decide), spliceLine_of_mnemonic pull (by decide)]
    exact relabelled.pushPull redundant
  · intro first second redundant
    obtain ⟨store, load⟩ := Peephole.mnemonics_of_isStoreLoad redundant
    rw [spliceLine_of_mnemonic store (by decide), spliceLine_of_mnemonic load (by decide)]
    exact relabelled.storeLoad redundant

theorem any_isReturn_optimize (lines : List Line) :
    (optimize lines).any isReturn = lines.any isReturn := by
  apply Peephole.any_optimize
  rintro line (push | pull | load) <;> simp [isReturn, *]

theorem optimize_return (lines : List Line) :
    optimize (lines ++ [.op .rts]) = optimize lines ++ [.op .rts] := by
  rw [Peephole.optimize_concat,
    Peephole.add_eq_cons (by simp [Line.op, Line.mnemonic?]) (by simp [Line.op, Line.mnemonic?]),
    List.reverse_cons]
  rfl

theorem dropLastReturn_return (lines : List Line) :
    dropLastReturn (lines ++ [.op .rts]) = lines := by
  rw [dropLastReturn, List.reverse_append]
  simp [dropFirstReturn, Line.isInstruction, Line.op, isReturn, Line.mnemonic?]

/-- A body that ends with a return can be optimised before it is copied or together with the code
around the copy. -/
theorem optimize_splice {body : Body} {front : List Line}
    (returns : body.code = front ++ [.op .rts]) (place : Symbol) :
    optimize (splice place (optimizeBody true body)).code = optimize (splice place body).code ∧
      (splice place (optimizeBody true body)).data = (splice place body).data := by
  have labels := bodyLabels_optimizeBody true body
  have code : (optimizeBody true body).code = optimize front ++ [.op .rts] := by
    rw [← optimize_return, ← returns]
    rfl
  constructor
  · simp only [splice, labels, code, returns, dropLastReturn_return, any_isReturn_optimize]
    exact Peephole.optimize_append_congr
      (Peephole.optimize_map_optimize (preserves_spliceLine place _) front) rfl
  · simp only [splice, labels]
    rfl

end Cartridge.Emit
