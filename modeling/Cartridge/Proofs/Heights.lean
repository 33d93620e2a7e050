import Cartridge.Proofs.Control

/-!
How many bytes code has pushed at each of its lines.

Every line gets a number of bytes that are certainly on the stack when control is there, counted
from where the code was entered. Pulls and looks into the stack stay above that level if these
numbers allow them. At a label ways meet: the number there is at most that of the line before and of
every jump to the label. The stack pointer is taken only in order to look once into the stack, and
never set. Rows of pieces, copies and the peephole rules keep all of this.
-/

namespace Cartridge.Asm

/-- The bytes that are pushed behind an instruction that goes on to the next and leaves the stack
pointer to itself. -/
def Mnemonic.climb? (mnemonic : Mnemonic) (n : Nat) : Option Nat :=
  match mnemonic with
  | .pha => some (n + 1)
  | .php => some (n + 1)
  | .pla => if n = 0 then none else some (n - 1)
  | .plp => if n = 0 then none else some (n - 1)
  | .tsx => none
  | .txs => none
  | .rts => none
  | mnemonic => if mnemonic.isJump then none else some n

namespace Line

/-- Loads what lies so deep in the stack, once the stack pointer is in the index. -/
def peek (depth : UInt8) : Line :=
  .on .ldy .indexedX (.byte depth)

/-- Whether the index holds the stack pointer behind a line. -/
def holds (held : Bool) (line : Line) : Bool :=
  match line.mnemonic? with
  | some .tsx => true
  | some .tax => false
  | _ => held

def climb? (line : Line) (n : Nat) : Option Nat :=
  match line with
  | .label _ => none
  | .instruction content => content.mnemonic.climb? n
  | _ => some n

end Line

/-- Whether the index holds the stack pointer in front of a line. -/
def holdsAt (code : List Line) (n : Nat) : Bool :=
  (code.take n).foldl Line.holds false

theorem holdsAt_succ {code : List Line} {n : Nat} {line : Line} (found : code[n]? = some line) :
    holdsAt code (n + 1) = line.holds (holdsAt code n) := by
  rw [holdsAt, List.take_add_one, found, List.foldl_append]
  rfl

/-- The bytes that are pushed behind lines without labels and jumps. -/
def climb? (code : List Line) (n : Nat) : Option Nat :=
  code.foldlM (fun n line => line.climb? n) n

/-- How many bytes are pushed before and behind a line, if so many are at the jumps to a label. -/
inductive Lifts (arrives : Symbol → Nat → Prop) : Bool → Line → Nat → Nat → Prop
  | label {symbol n m} (falls : m ≤ n) (meets : ∀ k, arrives symbol k → m ≤ k) :
    Lifts arrives false (.label symbol) n m
  | climb {line n k m} (climbs : line.climb? n = some k) (falls : m ≤ k) :
    Lifts arrives false line n m
  | jump {mnemonic symbol n k m} (jumps : mnemonic.isJump = true) (there : arrives symbol k)
    (enough : k ≤ n) (falls : mnemonic ≠ .jmp → m ≤ n) :
    Lifts arrives false (.direct mnemonic symbol) n m
  | ret {line n m} (returns : Emit.isReturn line = true) : Lifts arrives false line n m
  | take {n m} (falls : m ≤ n) : Lifts arrives false (.op .tsx) n m
  | peek {depth n m} (positive : 0 < depth.toNat) (within : depth.toNat ≤ n) (falls : m ≤ n) :
    Lifts arrives true (.peek depth) n m
  | move {n m} (falls : m ≤ n) : Lifts arrives true (.op .tya) n m
  | give {n m} (falls : m ≤ n) : Lifts arrives true (.op .tax) n m

inductive Rises (arrives : Symbol → Nat → Prop) : Bool → Nat → List Line → Nat → Prop
  | nil {n m} (falls : m ≤ n) : Rises arrives false n [] m
  | cons {held line n k code m} (lifts : Lifts arrives held line n k)
    (rest : Rises arrives (line.holds held) k code m) : Rises arrives held n (line :: code) m

/-- Code that pulls and looks at nothing but what it has pushed itself. -/
def Tidy (code : List Line) : Prop :=
  ∃ arrives, Rises arrives false 0 code 0

section Heights

variable {arrives more : Symbol → Nat → Prop} {held : Bool} {line : Line} {n k m h : Nat}
  {code front rest : List Line}

theorem Mnemonic.climb?_add {mnemonic : Mnemonic} (climbs : mnemonic.climb? n = some k) (h : Nat) :
    mnemonic.climb? (n + h) = some (k + h) := by
  unfold Mnemonic.climb? at *
  split at climbs
  all_goals grind

theorem climb?_append (front rest : List Line) (n : Nat) :
    climb? (front ++ rest) n = (climb? front n).bind (climb? rest) :=
  List.foldlM_append

theorem climb?_pushes {α : Type} {list : List α} {lines : α → List Line}
    (pushes : ∀ item n, climb? (lines item) n = some (n + 1)) (n : Nat) :
    climb? (list.flatMap lines) n = some (n + list.length) := by
  induction list generalizing n with
  | nil => rfl
  | cons item list ih =>
    rw [List.flatMap_cons, climb?_append, pushes, Option.bind_some, ih, List.length_cons]
    congr 1
    omega

theorem climb?_pulls {α : Type} {list : List α} {lines : α → List Line}
    (pulls : ∀ item n, climb? (lines item) (n + 1) = some n) (n : Nat) :
    climb? (list.flatMap lines) (n + list.length) = some n := by
  induction list generalizing n with
  | nil => rfl
  | cons item list ih =>
    rw [List.flatMap_cons, List.length_cons, ← Nat.add_assoc, climb?_append, pulls,
      Option.bind_some, ih]

theorem climb?_map {α : Type} {list : List α} {line : α → Line}
    (stays : ∀ item n, (line item).climb? n = some n) (n : Nat) :
    climb? (list.map line) n = some n := by
  induction list with
  | nil => rfl
  | cons item list ih =>
    rw [List.map_cons, climb?, List.foldlM_cons, stays]
    exact ih

theorem Line.climb?_add (climbs : line.climb? n = some k) (h : Nat) :
    line.climb? (n + h) = some (k + h) := by
  cases line with
  | label symbol => contradiction
  | instruction content => exact Mnemonic.climb?_add climbs h
  | _ =>
    obtain rfl := Option.some.inj climbs
    rfl

theorem Line.climb?_of_le (climbs : line.climb? n = some k) {high : Nat} (le : n ≤ high) :
    ∃ top, line.climb? high = some top ∧ k ≤ top := by
  obtain ⟨h, rfl⟩ := Nat.exists_eq_add_of_le le
  exact ⟨k + h, climb?_add climbs h, Nat.le_add_right k h⟩

theorem Line.holds_of_climb? (climbs : line.climb? n = some k) : line.holds false = false := by
  cases line with
  | instruction content =>
    obtain ⟨mnemonic, operand⟩ := content
    cases mnemonic <;> first | rfl | contradiction
  | _ => rfl

theorem Line.holds_of_mnemonic? {mnemonic : Mnemonic} (found : line.mnemonic? = some mnemonic)
    (kind : mnemonic ∈ [Mnemonic.pha, .pla, .lda]) : line.holds held = held := by
  simp only [List.mem_cons, List.not_mem_nil, or_false] at kind
  rcases kind with rfl | rfl | rfl <;> simp [Line.holds, found]

theorem Line.holds_of_isJump {mnemonic : Mnemonic} (jumps : mnemonic.isJump = true)
    (symbol : Symbol) : (Line.direct mnemonic symbol).holds held = held := by
  cases mnemonic <;> first | rfl | contradiction

/-- Pushes, pulls and loads of the accumulator do not happen while the stack pointer is held. -/
theorem Lifts.climbs {mnemonic : Mnemonic} (lifts : Lifts arrives held line n m)
    (found : line.mnemonic? = some mnemonic) (kind : mnemonic ∈ [Mnemonic.pha, .pla, .lda]) :
    held = false ∧ ∃ k, mnemonic.climb? n = some k ∧ m ≤ k := by
  have other : ∀ mnemonic, line.mnemonic? = some mnemonic →
      mnemonic ∈ [Mnemonic.pha, .pla, .lda] := by
    rintro _ same
    rwa [Option.some.inj (same.symm.trans found)]
  cases lifts with
  | label => contradiction
  | climb climbs falls =>
    cases line with
    | instruction content =>
      obtain rfl := Option.some.inj found
      exact ⟨rfl, _, climbs, falls⟩
    | _ => contradiction
  | @jump jump _ _ _ _ jumps =>
    have listed := other jump rfl
    simp only [List.mem_cons, List.not_mem_nil, or_false] at listed
    rcases listed with rfl | rfl | rfl <;> contradiction
  | ret returns => exact absurd (other .rts (beq_iff_eq.mp returns)) (by decide)
  | take => exact absurd (other .tsx rfl) (by decide)
  | peek => exact absurd (other .ldy rfl) (by decide)
  | move => exact absurd (other .tya rfl) (by decide)
  | give => exact absurd (other .tax rfl) (by decide)

theorem Lifts.raise (lifts : Lifts arrives held line n m) {high : Nat} (le : n ≤ high) :
    Lifts arrives held line high m := by
  cases lifts with
  | label falls meets => exact .label (falls.trans le) meets
  | climb climbs falls =>
    obtain ⟨top, climbsHigher, above⟩ := Line.climb?_of_le climbs le
    exact .climb climbsHigher (falls.trans above)
  | jump jumps there enough falls =>
    exact .jump jumps there (enough.trans le) fun goesOn => (falls goesOn).trans le
  | ret returns => exact .ret returns
  | take falls => exact .take (falls.trans le)
  | peek positive within falls => exact .peek positive (within.trans le) (falls.trans le)
  | move falls => exact .move (falls.trans le)
  | give falls => exact .give (falls.trans le)

theorem Lifts.weaken (lifts : Lifts arrives held line n m)
    (wider : ∀ symbol k, arrives symbol k → more symbol k)
    (known : ∀ symbol k, more symbol k → arrives symbol k ∨ line.label? ≠ some symbol) :
    Lifts more held line n m := by
  cases lifts with
  | label falls meets =>
    refine .label falls fun k there => ?_
    exact meets k ((known _ k there).resolve_right (not_not_intro rfl))
  | climb climbs falls => exact .climb climbs falls
  | jump jumps there enough falls => exact .jump jumps (wider _ _ there) enough falls
  | ret returns => exact .ret returns
  | take falls => exact .take falls
  | peek positive within falls => exact .peek positive within falls
  | move falls => exact .move falls
  | give falls => exact .give falls

theorem Lifts.passes (lifts : Lifts arrives held line n m)
    (silent : line.isInstruction = false) : held = false ∧ line.holds held = false ∧ m ≤ n := by
  cases lifts with
  | label falls meets => exact ⟨rfl, rfl, falls⟩
  | climb climbs falls =>
    refine ⟨rfl, Line.holds_of_climb? climbs, ?_⟩
    cases line with
    | instruction instruction => contradiction
    | label symbol => contradiction
    | _ =>
      obtain rfl := Option.some.inj climbs
      exact falls
  | ret returns =>
    rw [Emit.isInstruction_of_isReturn returns] at silent
    contradiction
  | _ => contradiction

theorem Lifts.jumps {mnemonic : Mnemonic} {symbol : Symbol}
    (lifts : Lifts arrives held (.direct mnemonic symbol) n m) (jumps : mnemonic.isJump = true) :
    held = false ∧ (∃ low, arrives symbol low ∧ low ≤ n) ∧ (mnemonic ≠ .jmp → m ≤ n) := by
  cases lifts with
  | climb climbs falls => cases mnemonic <;> contradiction
  | jump _ there enough falls => exact ⟨rfl, ⟨_, there, enough⟩, falls⟩
  | ret returns =>
    obtain rfl := Option.some.inj (beq_iff_eq.mp returns)
    contradiction

theorem Lifts.calls {symbol : Symbol}
    (lifts : Lifts arrives held (.direct .jsr symbol) n m) : held = false ∧ m ≤ n := by
  cases lifts with
  | climb climbs falls =>
    obtain rfl := Option.some.inj climbs
    exact ⟨rfl, falls⟩
  | jump jumps => contradiction
  | ret returns => contradiction

namespace Rises

theorem raise (rises : Rises arrives held n code m) {high : Nat} (le : n ≤ high) :
    Rises arrives held high code m := by
  cases rises with
  | nil falls => exact .nil (falls.trans le)
  | cons lifts rest => exact .cons (lifts.raise le) rest

theorem lower (rises : Rises arrives held n code m) {low : Nat} (le : low ≤ m) :
    Rises arrives held n code low := by
  induction rises with
  | nil falls => exact .nil (le.trans falls)
  | cons lifts _ ih => exact .cons lifts (ih le)

theorem append (rises : Rises arrives held n code k) (next : Rises arrives false k rest m) :
    Rises arrives held n (code ++ rest) m := by
  induction rises with
  | nil falls => exact next.raise falls
  | cons lifts _ ih => exact .cons lifts (ih next)

/-- Arrivals at labels of other code make no difference. -/
theorem weaken (rises : Rises arrives held n code m)
    (wider : ∀ symbol k, arrives symbol k → more symbol k)
    (known : ∀ symbol k, more symbol k → arrives symbol k ∨ symbol ∉ definedLabels code) :
    Rises more held n code m := by
  induction rises with
  | nil falls => exact .nil falls
  | @cons held line n k code m lifts _ ih =>
    refine .cons (lifts.weaken wider fun symbol k there => ?_) (ih fun symbol k there => ?_)
    · refine (known symbol k there).imp_right fun absent found => absent ?_
      exact List.mem_filterMap.mpr ⟨line, List.mem_cons_self, found⟩
    · refine (known symbol k there).imp_right fun absent found => absent ?_
      obtain ⟨other, member, label⟩ := List.mem_filterMap.mp found
      exact List.mem_filterMap.mpr ⟨other, List.mem_cons_of_mem _ member, label⟩

/-- What is known in front of the rest of the code, and of the code before it if the stack pointer
is not held there. -/
theorem split (rises : Rises arrives held n (front ++ rest) m) :
    ∃ k, Rises arrives (front.foldl Line.holds held) k rest m ∧
      (front.foldl Line.holds held = false → Rises arrives held n front k) := by
  induction front generalizing held n with
  | nil =>
    refine ⟨n, rises, ?_⟩
    rintro rfl
    exact .nil (Nat.le_refl n)
  | cons line front ih =>
    cases rises with
    | cons lifts others =>
      obtain ⟨k, behind, before⟩ := ih others
      exact ⟨k, behind, fun free => .cons lifts (before free)⟩

theorem drop (rises : Rises arrives false n code m) (position : Nat) :
    ∃ k, Rises arrives (holdsAt code position) k (code.drop position) m := by
  rw [← List.take_append_drop position code] at rises
  obtain ⟨k, behind, -⟩ := rises.split
  exact ⟨k, behind⟩

/-- A jump lands with what it arrives with. -/
theorem lands {symbol : Symbol} (rises : Rises arrives held n (.label symbol :: rest) m)
    (there : arrives symbol k) :
    held = false ∧ Rises arrives false k (.label symbol :: rest) m := by
  cases rises with
  | cons lifts others =>
    cases lifts with
    | label falls meets => exact ⟨rfl, .cons (.label (meets k there) meets) others⟩
    | climb climbs => contradiction
    | ret returns => contradiction

theorem of_climb? (climbs : climb? code n = some m) : Rises arrives false n code m := by
  induction code generalizing n with
  | nil => exact .nil (Option.some.inj climbs).ge
  | cons line code ih =>
    obtain ⟨k, here, behind⟩ := Option.bind_eq_some_iff.mp climbs
    refine .cons (.climb here (Nat.le_refl k)) ?_
    rw [Line.holds_of_climb? here]
    exact ih behind

theorem of_silent (silent : ∀ line ∈ code, line.isInstruction = false) :
    Rises arrives false n code 0 := by
  induction code generalizing n with
  | nil => exact .nil (Nat.zero_le n)
  | cons line code ih =>
    have others := fun other member => silent other (List.mem_cons_of_mem _ member)
    have here := silent line List.mem_cons_self
    cases line with
    | label symbol => exact .cons (.label (Nat.zero_le n) fun k _ => Nat.zero_le k) (ih others)
    | instruction content => contradiction
    | _ => exact .cons (.climb rfl (Nat.zero_le n)) (ih others)

/-- Lines may be left out where nothing is lost by it. -/
theorem erase (middle : List Line) (rises : Rises arrives held n (front ++ (middle ++ rest)) m)
    (needless : ∀ held k, Rises arrives held k (middle ++ rest) m →
      held = false ∧ Rises arrives false k rest m) :
    Rises arrives held n (front ++ rest) m := by
  obtain ⟨k, behind, before⟩ := rises.split
  obtain ⟨free, next⟩ := needless _ k behind
  exact (before free).append next

theorem push_pull {last : Line} (redundant : Peephole.isPushPull last line = true)
    (rises : Rises arrives held n (last :: line :: rest) m) :
    held = false ∧ Rises arrives false n rest m := by
  obtain ⟨pushes, pulls⟩ := Peephole.mnemonics_of_isPushPull redundant
  cases rises with
  | cons pushed others =>
    obtain ⟨rfl, high, climbs, falls⟩ := pushed.climbs pushes (by simp)
    obtain rfl := Option.some.inj climbs
    rw [Line.holds_of_mnemonic? pushes (by simp)] at others
    cases others with
    | cons pulled others =>
      obtain ⟨-, low, climbs, fallsToo⟩ := pulled.climbs pulls (by simp)
      rw [Line.holds_of_mnemonic? pulls (by simp)] at others
      simp only [Mnemonic.climb?] at climbs
      split at climbs
      next => contradiction
      next =>
        obtain rfl := Option.some.inj climbs
        exact ⟨rfl, others.raise (by omega)⟩

theorem store_load {last : Line} (redundant : Peephole.isStoreLoad last line = true)
    (rises : Rises arrives held n (line :: rest) m) :
    held = false ∧ Rises arrives false n rest m := by
  obtain ⟨-, loads⟩ := Peephole.mnemonics_of_isStoreLoad redundant
  cases rises with
  | cons lifts others =>
    obtain ⟨rfl, k, climbs, falls⟩ := lifts.climbs loads (by simp)
    obtain rfl := Option.some.inj climbs
    rw [Line.holds_of_mnemonic? loads (by simp)] at others
    exact ⟨rfl, others.raise falls⟩

theorem foldl_add {written : List Line}
    (rises : Rises arrives held n (written.reverse ++ code) m) :
    Rises arrives held n (code.foldl Peephole.add written).reverse m := by
  induction code generalizing written with
  | nil => rwa [List.append_nil] at rises
  | cons line code ih =>
    rw [List.foldl_cons]
    apply ih
    cases written with
    | nil => exact rises
    | cons last written =>
      simp only [Peephole.add]
      split
      next redundant =>
        rw [List.reverse_cons, List.append_assoc] at rises
        exact erase [last, line] rises fun _ _ => push_pull redundant
      next =>
        split
        next redundant => exact erase [line] rises fun _ _ => store_load redundant
        next => simpa using rises

end Rises

theorem Tidy.optimize (tidy : Tidy code) : Tidy (Peephole.optimize code) := by
  obtain ⟨arrives, rises⟩ := tidy
  exact ⟨arrives, rises.foldl_add⟩

theorem Lifts.eq_false (lifts : Lifts arrives held line n m)
    (returns : Emit.isReturn line = true) : held = false := by
  cases lifts with
  | peek => contradiction
  | move => contradiction
  | give => contradiction
  | _ => rfl

/-- The stack pointer is given up where code returns or ends. -/
theorem Tidy.holdsAt_eq (tidy : Tidy code) (ends : code[n]?.all Emit.isReturn = true) :
    holdsAt code n = false := by
  obtain ⟨arrives, rises⟩ := tidy
  obtain ⟨k, behind⟩ := rises.drop n
  generalize holdsAt code n = held at behind
  cases found : code[n]? with
  | none =>
    rw [List.drop_eq_nil_of_le (List.getElem?_eq_none_iff.mp found)] at behind
    cases behind
    rfl
  | some line =>
    obtain ⟨inside, same⟩ := List.getElem?_eq_some_iff.mp found
    rw [List.drop_eq_getElem_cons inside, same] at behind
    cases behind with
    | cons lifts _ => exact lifts.eq_false (by simpa [found] using ends)

end Heights

end Cartridge.Asm

namespace Cartridge.Emit

open Asm
open Program (Body)

section Copies

variable {arrives : Symbol → Nat → Prop} {place : Symbol} {body : Body} {held : Bool} {line : Line}
  {n m height : Nat} {code : List Line}

/-- The arrivals in a copy at a height. -/
def arrivesIn (arrives : Symbol → Nat → Prop) (place : Symbol) (body : Body) (height : Nat)
    (symbol : Symbol) (k : Nat) : Prop :=
  (∃ original ∈ definedLabels body.code, ∃ low, arrives original low ∧
    symbol = renameAt place (bodyLabels body) original ∧ k = low + height) ∨
  symbol ∈ behindCopy place body ∧ k = height

theorem mem_of_arrivesIn {symbol : Symbol} {k : Nat}
    (there : arrivesIn arrives place body height symbol k) :
    symbol ∈ definedLabels (splice place body).code := by
  rw [definedLabels_code_splice]
  rcases there with ⟨original, mine, low, -, rfl, -⟩ | ⟨behind, -⟩
  · exact List.mem_append_left _ (List.mem_map_of_mem mine)
  · exact List.mem_append_right _ behind

theorem le_of_arrivesIn {symbol : Symbol} {k : Nat}
    (there : arrivesIn arrives place body height symbol k) : height ≤ k := by
  rcases there with ⟨_, -, low, -, -, rfl⟩ | ⟨-, rfl⟩
  · exact Nat.le_add_left height low
  · exact Nat.le_refl k

theorem climb?_relabel (rename : Symbol → Symbol) (line : Line) (n : Nat) :
    (relabel rename line).climb? n = line.climb? n := by
  cases line <;> rfl

theorem isReturn_of_climb? {k : Nat} (climbs : line.climb? n = some k) : isReturn line = false := by
  rw [Bool.eq_false_iff]
  intro returns
  cases line with
  | instruction content =>
    obtain ⟨mnemonic, operand⟩ := content
    obtain rfl : mnemonic = .rts := Option.some.inj (beq_iff_eq.mp returns)
    contradiction
  | _ => contradiction

theorem holds_spliceLine (rename : Symbol → Symbol) :
    (spliceLine place rename line).holds held = line.holds held := by
  unfold spliceLine
  split
  next returns =>
    rw [Line.holds, Line.holds, beq_iff_eq.mp returns]
    rfl
  next => rw [Line.holds, mnemonic?_relabel, Line.holds]

theorem lifts_copy (distinct : (definedLabels (splice place body).code).Nodup)
    (member : line ∈ dropLastReturn body.code) {called : Symbol → Prop}
    (controls : line.Controls (· ∈ definedLabels body.code) called)
    (lifts : Lifts arrives held line n m) (height : Nat) :
    Lifts (arrivesIn arrives place body height) held
      (spliceLine place (renameAt place (bodyLabels body)) line) (n + height) (m + height) := by
  have copied : ∀ {line : Line}, isReturn line = false →
      spliceLine place (renameAt place (bodyLabels body)) line =
        relabel (renameAt place (bodyLabels body)) line := by
    intro line stays
    rw [spliceLine, if_neg (by simp [stays])]
  cases lifts with
  | @label symbol _ _ falls meets =>
    refine .label (Nat.add_le_add_right falls height) fun k there => ?_
    have mine : symbol ∈ definedLabels body.code := by
      rw [← definedLabels_dropLastReturn]
      exact List.mem_filterMap.mpr ⟨_, member, rfl⟩
    rw [definedLabels_code_splice, List.nodup_append] at distinct
    rcases there with ⟨original, mineToo, low, there, same, rfl⟩ | ⟨behind, -⟩
    · have equal : symbol = original :=
        List.inj_on_of_nodup_map distinct.1 mine mineToo same
      subst equal
      exact Nat.add_le_add_right (meets low there) height
    · exact absurd rfl (distinct.2.2 _ (List.mem_map_of_mem mine) _ behind)
  | climb climbs falls =>
    rw [copied (isReturn_of_climb? climbs)]
    refine .climb ?_ (Nat.add_le_add_right falls height)
    rw [climb?_relabel]
    exact Line.climb?_add climbs height
  | @jump mnemonic symbol _ k _ jumps there enough falls =>
    have stays : isReturn (.direct mnemonic symbol) = false := by
      rw [Bool.eq_false_iff]
      intro returns
      obtain rfl : mnemonic = .rts := Option.some.inj (beq_iff_eq.mp returns)
      contradiction
    obtain ⟨same, mine, inside⟩ := controls.jumps mnemonic rfl jumps
    obtain rfl : symbol = same := by simpa [Line.direct, Line.on] using mine
    rw [copied stays]
    refine .jump jumps (.inl ⟨symbol, inside, k, there, rfl, rfl⟩)
      (Nat.add_le_add_right enough height) ?_
    exact fun goesOn => Nat.add_le_add_right (falls goesOn) height
  | ret returns =>
    have any : (dropLastReturn body.code).any isReturn = true :=
      List.any_eq_true.mpr ⟨line, member, returns⟩
    rw [spliceLine, if_pos returns]
    refine .jump rfl (.inr ⟨?_, rfl⟩) (Nat.le_add_left height n) fun goesOn => absurd rfl goesOn
    rw [behindCopy, if_pos any]
    exact List.mem_singleton_self _
  | take falls => exact .take (Nat.add_le_add_right falls height)
  | peek positive within falls =>
    exact .peek positive (Nat.le_add_right_of_le within) (Nat.add_le_add_right falls height)
  | move falls => exact .move (Nat.add_le_add_right falls height)
  | give falls => exact .give (Nat.add_le_add_right falls height)

theorem rises_dropLastReturn (rises : Rises arrives false n code 0) :
    Rises arrives false n (dropLastReturn code) 0 := by
  rcases dropLastReturn_cases code with ⟨front, line, rest, rfl, returns, silent, kept⟩ | ⟨same, -⟩
  · rw [kept]
    refine Rises.erase [line] rises ?_
    rintro held k (⟨⟩ | ⟨lifts, -⟩)
    exact ⟨lifts.eq_false returns, .of_silent silent⟩
  · rwa [same]

/-- A copy at a height does what the body does from its entry on, and ends no lower. -/
theorem rises_splice {called : Symbol → Prop} (tidy : Tidy body.code)
    (controlled : Controlled (fun _ => False) called body)
    (distinct : (definedLabels (splice place body).code).Nodup) (height : Nat) :
    ∃ arrives, (∀ symbol k, arrives symbol k → symbol ∈ definedLabels (splice place body).code) ∧
      Rises arrives false height (splice place body).code height := by
  obtain ⟨arrives, rises⟩ := tidy
  refine ⟨arrivesIn arrives place body height, fun _ _ there => mem_of_arrivesIn there, ?_⟩
  have copy : ∀ {held n m code}, Rises arrives held n code m →
      (∀ line ∈ code, line ∈ dropLastReturn body.code) →
      Rises (arrivesIn arrives place body height) held (n + height)
        (code.map (spliceLine place (renameAt place (bodyLabels body)))) (m + height) := by
    intro held n m code rises inside
    induction rises with
    | nil falls => exact .nil (Nat.add_le_add_right falls height)
    | @cons held line n k code m lifts _ ih =>
      have member := inside line List.mem_cons_self
      have controls := (controlled.code line ((dropLastReturn_sublist _).subset member)).mono
        (fun _ mine => mine.resolve_right id) fun _ known => known
      refine .cons (lifts_copy distinct member controls lifts height) ?_
      rw [holds_spliceLine]
      exact ih fun other later => inside other (List.mem_cons_of_mem _ later)
  have copied := copy (rises_dropLastReturn rises) fun _ member => member
  rw [Nat.zero_add] at copied
  refine copied.append ?_
  split
  next =>
    refine .cons (.label (Nat.le_refl height) fun k there => ?_) (.nil (Nat.le_refl height))
    exact le_of_arrivesIn there
  next => exact .nil (Nat.le_refl height)

end Copies

end Cartridge.Emit
