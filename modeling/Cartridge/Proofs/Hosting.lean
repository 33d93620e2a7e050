import Cartridge.Proofs.Copies
import Cartridge.Proofs.Relocation

/-!
A copy of a body among the lines of its host.

The labels of a copy have other names. It takes the same steps as the body under the addresses that
these names have, at the same level of the stack, and it goes to its end where the body would
return.
-/

namespace Cartridge.Machine

open Asm (Instruction Line Operand Symbol Value definedLabels holdsAt)
open Emit (Controlled bodyLabels copyIndex dropLastReturn isReturn relabel renameAt splice spliceEnd
  spliceLine)
open Program (Body)

/-- Whether a body goes no further at a line: it returns there, or has come to its end. -/
def endsAt (code : List Line) (n : Nat) : Bool :=
  code[n]?.all isReturn

theorem exists_of_endsAt {code : List Line} {n : Nat} (running : endsAt code n = false) :
    ∃ line, code[n]? = some line ∧ isReturn line = false := by
  simpa [endsAt, Option.all_eq_false] using running

theorem Surroundings.Way.isReturn_eq {around : Surroundings} {part : CodePart} {limit n : Nat}
    {cpu : Cpu} {line : Line} {after : State} (way : around.Way part limit n cpu line after) :
    isReturn line = false := by
  rw [Bool.eq_false_iff]
  intro returns
  cases way with
  | passed silent =>
    rw [Emit.isInstruction_of_isReturn returns] at silent
    contradiction
  | jumped leaves jumps goes =>
    obtain rfl := Option.some.inj (beq_iff_eq.mp returns)
    contradiction
  | executed stays ran careful =>
    rw [execute?_of_isReturn returns] at ran
    contradiction
  | called ran => contradiction

/-- A return that is dropped does not matter to what the index holds. -/
theorem holdsAt_dropLastReturn (code : List Line) (n : Nat) :
    holdsAt (dropLastReturn code) (copyIndex code n) = holdsAt code n := by
  induction n with
  | zero =>
    rw [Emit.copyIndex_zero]
    rfl
  | succ n ih =>
    cases found : code[n]? with
    | none =>
      have behind := List.getElem?_eq_none_iff.mp found
      rw [Emit.copyIndex_of_le behind] at ih
      rw [Emit.copyIndex_of_le (Nat.le_succ_of_le behind), ih, holdsAt, holdsAt,
        List.take_of_length_le behind, List.take_of_length_le (Nat.le_succ_of_le behind)]
    | some line =>
      rw [Asm.holdsAt_succ found]
      rcases Emit.copyIndex_cases found with ⟨kept, next⟩ | ⟨returns, -, next⟩
      · rw [next, Asm.holdsAt_succ kept, ih]
      · rw [next, ih, Line.holds, beq_iff_eq.mp returns]

theorem exists_lineOf? {code : List Line} {symbol : Symbol} (mine : symbol ∈ definedLabels code) :
    ∃ n, lineOf? code symbol = some n := by
  obtain ⟨line, member, label⟩ := List.mem_filterMap.mp mine
  have same : line = .label symbol := by
    cases line <;> simp_all [Line.label?]
  apply Option.ne_none_iff_exists'.mp
  intro absent
  have other := List.findIdx?_eq_none_iff.mp absent line member
  simp [same] at other

theorem isInstruction_relabel (rename : Symbol → Symbol) (line : Line) :
    (relabel rename line).isInstruction = line.isInstruction := by
  cases line <;> rfl

/-- A copy of a body in its place, where nothing before it has a label of the copy. -/
structure Hosted (place : Symbol) (body : Body) (front host : List Line) : Prop where
  lines : ∃ back, host = front ++ (splice place body).code ++ back
  distinct : (definedLabels (splice place body).code).Nodup
  fresh : ∀ symbol ∈ definedLabels (splice place body).code, symbol ∉ definedLabels front

/-- The lines of the host that are a copy. -/
def copyPart (place : Symbol) (body : Body) (front host : List Line) (outside : Nat → UInt16) :
    CodePart :=
  { code := host, first := front.length, length := (splice place body).code.length
    words := outside }

/-- The body, with the words that the calls of its copy leave. -/
def ownPart (body : Body) (front : List Line) (outside : Nat → UInt16) : CodePart :=
  .whole body.code fun n => outside (front.length + copyIndex body.code n)

namespace Surroundings

def CopySteps (around : Surroundings) (limit : Nat) (place : Symbol) (body : Body)
    (front host : List Line) (outside : Nat → UInt16) : State → State → Prop :=
  around.Steps (copyPart place body front host outside) limit

/-- Steps of the body under the names that its copy has. -/
def OwnSteps (around : Surroundings) (limit : Nat) (place : Symbol) (body : Body)
    (front : List Line) (outside : Nat → UInt16) : State → State → Prop :=
  (around.relocate (renameAt place (bodyLabels body))).Steps (ownPart body front outside) limit

end Surroundings

namespace Hosted

variable {place symbol : Symbol} {body : Body} {front host : List Line} {line : Line} {n : Nat}

theorem getElem? (hosted : Hosted place body front host)
    (found : (splice place body).code[n]? = some line) :
    host[front.length + n]? = some line := by
  obtain ⟨back, rfl⟩ := hosted.lines
  have inside := (List.getElem?_eq_some_iff.mp found).1
  rw [List.append_assoc, List.getElem?_append_right (Nat.le_add_right _ _),
    Nat.add_sub_cancel_left, List.getElem?_append_left inside, found]

theorem lineOf? (hosted : Hosted place body front host)
    (found : (splice place body).code[n]? = some (.label symbol)) :
    Machine.lineOf? host symbol = some (front.length + n) := by
  have defined : symbol ∈ definedLabels (splice place body).code :=
    List.mem_filterMap.mpr ⟨_, List.mem_of_getElem? found, rfl⟩
  have placed := lineOf?_eq_some hosted.distinct found
  have absent : Machine.lineOf? front symbol = none := by
    rw [Machine.lineOf?, List.findIdx?_eq_none_iff]
    intro line member
    rw [beq_eq_false_iff_ne]
    rintro rfl
    exact hosted.fresh symbol defined (List.mem_filterMap.mpr ⟨_, member, rfl⟩)
  obtain ⟨back, rfl⟩ := hosted.lines
  rw [Machine.lineOf?] at absent placed ⊢
  rw [List.append_assoc, List.findIdx?_append, absent, List.findIdx?_append, placed]
  simp [Nat.add_comm]

theorem getElem?_splice (place : Symbol) (kept : (dropLastReturn body.code)[n]? = some line) :
    (splice place body).code[n]? =
      some (spliceLine place (renameAt place (bodyLabels body)) line) := by
  have inside := (List.getElem?_eq_some_iff.mp kept).1
  rw [splice, List.getElem?_append_left (by rwa [List.length_map]), List.getElem?_map, kept]
  rfl

/-- A label of the body is under its new name where its line is. -/
theorem lands (hosted : Hosted place body front host)
    (found : Machine.lineOf? body.code symbol = some n) :
    Machine.lineOf? host (renameAt place (bodyLabels body) symbol) =
      some (front.length + copyIndex body.code n) := by
  have label := label_of_lineOf? found
  rcases Emit.copyIndex_cases label with ⟨kept, -⟩ | ⟨returns, -⟩
  · exact hosted.lineOf? (getElem?_splice place kept)
  · contradiction

theorem length_kept_le (place : Symbol) (body : Body) :
    (dropLastReturn body.code).length ≤ (splice place body).code.length := by
  simp [splice]

theorem holdsAt (hosted : Hosted place body front host) (outside : Nat → UInt16) (n : Nat) :
    (copyPart place body front host outside).holdsAt (front.length + copyIndex body.code n) =
      (ownPart body front outside).holdsAt n := by
  have kept : copyIndex body.code n ≤ (dropLastReturn body.code).length := Nat.sub_le _ _
  have inside := kept.trans (length_kept_le place body)
  have folded : ∀ (lines : List Line) held,
      (lines.map (spliceLine place (renameAt place (bodyLabels body)))).foldl Line.holds held =
        lines.foldl Line.holds held := by
    intro lines
    induction lines with
    | nil => exact fun held => rfl
    | cons line lines ih =>
      intro held
      rw [List.map_cons, List.foldl_cons, Emit.holds_spliceLine, ih, List.foldl_cons]
  have own : (ownPart body front outside).holdsAt n = Asm.holdsAt body.code n := rfl
  obtain ⟨back, rfl⟩ := hosted.lines
  rw [own, ← holdsAt_dropLastReturn, CodePart.holdsAt, Asm.holdsAt, Asm.holdsAt]
  simp only [copyPart, Nat.add_sub_cancel_left]
  rw [List.append_assoc, List.drop_left, List.take_append_of_le_length inside, splice,
    List.take_append_of_le_length (by rwa [List.length_map]), ← List.map_take, folded]

section Steps

variable {around : Surroundings} {called : Symbol → Prop} {limit : Nat} {cpu : Cpu} {after : State}
  {outside : Nat → UInt16}

theorem copySteps_iff (hosted : Hosted place body front host) :
    around.CopySteps limit place body front host outside ⟨front.length + n, cpu⟩ after ↔
      ∃ line, (splice place body).code[n]? = some line ∧
        around.Way (copyPart place body front host outside) limit (front.length + n) cpu line
          after := by
  constructor
  · intro stepped
    obtain ⟨-, inside, line, found, way⟩ := Surroundings.steps_iff.mp stepped
    have here := List.getElem?_eq_getElem (Nat.lt_of_add_lt_add_left inside)
    obtain rfl := Option.some.inj ((hosted.getElem? here).symm.trans found)
    exact ⟨_, here, way⟩
  · rintro ⟨line, found, way⟩
    have inside := (List.getElem?_eq_some_iff.mp found).1
    exact Surroundings.steps_iff.mpr ⟨Nat.le_add_right _ _, Nat.add_lt_add_left inside _, line,
      hosted.getElem? found, way⟩

theorem way (hosted : Hosted place body front host)
    (next : copyIndex body.code (n + 1) = copyIndex body.code n + 1)
    (way : (around.relocate (renameAt place (bodyLabels body))).Way (ownPart body front outside)
      limit n cpu line after) :
    around.Way (copyPart place body front host outside) limit
      (front.length + copyIndex body.code n) cpu (relabel (renameAt place (bodyLabels body)) line)
      ⟨front.length + copyIndex body.code after.line, after.cpu⟩ := by
  cases way with
  | passed silent =>
    rw [next]
    exact .passed (by rwa [isInstruction_relabel])
  | @jumped mnemonic symbol target leaves jumps goes =>
    refine .jumped leaves jumps ?_
    cases leaves with
    | true => exact hosted.lands goes
    | false =>
      obtain rfl := Option.some.inj goes
      rw [next]
      rfl
  | executed stays ran careful =>
    rw [next]
    refine .executed stays ((execute?_relabel _).trans ran) (careful_relabel.mpr ?_)
    rw [hosted.holdsAt]
    exact careful
  | called ran =>
    rw [next]
    exact .called ran

theorem way_back (hosted : Hosted place body front host)
    (controls : line.Controls (· ∈ definedLabels body.code) called)
    (next : copyIndex body.code (n + 1) = copyIndex body.code n + 1)
    (way : around.Way (copyPart place body front host outside) limit
      (front.length + copyIndex body.code n) cpu (relabel (renameAt place (bodyLabels body)) line)
      after) :
    ∃ before, (around.relocate (renameAt place (bodyLabels body))).Way (ownPart body front outside)
        limit n cpu line before ∧
      after = ⟨front.length + copyIndex body.code before.line, before.cpu⟩ := by
  generalize same : relabel (renameAt place (bodyLabels body)) line = copied at way
  have mnemonic : copied.mnemonic? = line.mnemonic? := by
    rw [← same, Emit.mnemonic?_relabel]
  cases way with
  | passed silent =>
    refine ⟨⟨n + 1, cpu⟩, .passed ?_, by rw [next]; rfl⟩
    rwa [← same, isInstruction_relabel] at silent
  | @jumped jump symbol target leaves jumps goes =>
    obtain ⟨original, rfl, mine⟩ := controls.jumps jump mnemonic.symm (isJump_of_leaves jumps)
    obtain ⟨-, renamed⟩ : jump = jump ∧ renameAt place (bodyLabels body) original = symbol := by
      simpa [relabel, Line.direct, Line.on, Operand.mapValue, Value.mapSymbol] using same
    subst renamed
    cases leaves with
    | true =>
      -- The body has the label, so the copy has no other place for its new name.
      obtain ⟨destination, found⟩ := exists_lineOf? mine
      obtain rfl := Option.some.inj ((hosted.lands found).symm.trans goes)
      exact ⟨⟨destination, cpu⟩, .jumped true jumps found, rfl⟩
    | false =>
      obtain rfl := Option.some.inj goes
      exact ⟨⟨n + 1, cpu⟩, .jumped false jumps rfl, by rw [next]; rfl⟩
  | @executed instruction result stays ran careful =>
    cases line with
    | instruction original =>
      obtain rfl := Line.instruction.inj same
      refine ⟨⟨n + 1, result⟩, .executed stays ?_ ?_, by rw [next]; rfl⟩
      · exact (execute?_relabel original).symm.trans ran
      · rw [hosted.holdsAt] at careful
        exact careful_relabel.mp careful
    | _ => contradiction
  | @called symbol result ran =>
    obtain ⟨original, rfl, -⟩ := controls.calls mnemonic.symm
    have renamed : renameAt place (bodyLabels body) original = symbol := by
      simpa [relabel, Line.direct, Line.on, Operand.mapValue, Value.mapSymbol] using same
    subst renamed
    exact ⟨⟨n + 1, result⟩, .called ran, by rw [next]; rfl⟩

theorem step (hosted : Hosted place body front host)
    (stepped : around.OwnSteps limit place body front outside ⟨n, cpu⟩ after) :
    around.CopySteps limit place body front host outside
      ⟨front.length + copyIndex body.code n, cpu⟩
      ⟨front.length + copyIndex body.code after.line, after.cpu⟩ := by
  obtain ⟨-, -, line, found, way⟩ := Surroundings.steps_iff.mp stepped
  have stays := way.isReturn_eq
  rcases Emit.copyIndex_cases found with ⟨kept, next⟩ | ⟨returns, -⟩
  · refine hosted.copySteps_iff.mpr ⟨_, getElem?_splice place kept, ?_⟩
    rw [spliceLine, if_neg (by simp [stays])]
    exact hosted.way next way
  · rw [stays] at returns
    contradiction

/-- A step of the copy is one of the body, unless that goes no further. -/
theorem step_back (hosted : Hosted place body front host)
    (controlled : Controlled (fun _ => False) called body) (running : endsAt body.code n = false)
    (stepped : around.CopySteps limit place body front host outside
      ⟨front.length + copyIndex body.code n, cpu⟩ after) :
    ∃ before, around.OwnSteps limit place body front outside ⟨n, cpu⟩ before ∧
      after = ⟨front.length + copyIndex body.code before.line, before.cpu⟩ := by
  obtain ⟨line, found, stays⟩ := exists_of_endsAt running
  have inside := (List.getElem?_eq_some_iff.mp found).1
  rcases Emit.copyIndex_cases found with ⟨kept, next⟩ | ⟨returns, -⟩
  · obtain ⟨here, foundHere, way⟩ := hosted.copySteps_iff.mp stepped
    obtain rfl := Option.some.inj ((getElem?_splice place kept).symm.trans foundHere)
    rw [spliceLine, if_neg (by simp [stays])] at way
    have controls := (controlled.code line (List.mem_of_getElem? found)).mono
      (fun _ inside => inside.resolve_right id) fun _ known => known
    obtain ⟨before, wayBack, same⟩ := hosted.way_back controls next way
    refine ⟨before, Surroundings.steps_iff.mpr ⟨Nat.zero_le n, ?_, line, found, wayBack⟩, same⟩
    rwa [← Nat.zero_add body.code.length] at inside
  · rw [stays] at returns
    contradiction

end Steps

/-- Nothing is left of the copy from a line on but labels. -/
def Drained (copy : List Line) (n : Nat) : Prop :=
  n ≤ copy.length ∧ ∀ line ∈ copy.drop n, line.isInstruction = false

theorem drained_of_silent (place : Symbol) (inside : n ≤ (dropLastReturn body.code).length)
    (silent : ∀ line ∈ (dropLastReturn body.code).drop n, line.isInstruction = false) :
    Drained (splice place body).code n := by
  refine ⟨inside.trans (length_kept_le place body), ?_⟩
  intro line member
  rw [splice, List.drop_append_of_le_length (by rwa [List.length_map]), ← List.map_drop] at member
  rcases List.mem_append.mp member with copied | behind
  · obtain ⟨original, kept, rfl⟩ := List.mem_map.mp copied
    have quiet := silent original kept
    have stays : isReturn original ≠ true := by
      intro returns
      rw [Emit.isInstruction_of_isReturn returns] at quiet
      contradiction
    rwa [spliceLine, if_neg stays, isInstruction_relabel]
  · split at behind
    next =>
      obtain rfl := List.mem_singleton.mp behind
      rfl
    next => contradiction

/-- Where the body goes no further, its copy jumps to its end or has but labels before it. -/
theorem ends_cases (place : Symbol) (ends : endsAt body.code n = true) :
    Drained (splice place body).code (copyIndex body.code n) ∨
      (splice place body).code[copyIndex body.code n]? = some (.direct .jmp (spliceEnd place)) ∧
      ∃ last, (splice place body).code[last]? = some (.label (spliceEnd place)) ∧
        Drained (splice place body).code last := by
  cases found : body.code[n]? with
  | none =>
    have behind := Emit.copyIndex_of_le (List.getElem?_eq_none_iff.mp found)
    refine .inl (drained_of_silent place behind.le ?_)
    rw [behind, List.drop_length]
    simp
  | some line =>
    have returns : isReturn line = true := by simpa [endsAt, found] using ends
    rcases Emit.copyIndex_cases found with ⟨kept, -⟩ | ⟨-, silent, -⟩
    · have any : (dropLastReturn body.code).any isReturn = true :=
        List.any_eq_true.mpr ⟨line, List.mem_of_getElem? kept, returns⟩
      refine .inr ⟨?_, (dropLastReturn body.code).length, ?_, ?_⟩
      · rw [getElem?_splice place kept, spliceLine, if_pos returns]
      · rw [splice, if_pos any, List.getElem?_append_right (by rw [List.length_map])]
        simp
      · exact drained_of_silent place (Nat.le_refl _) (by simp)
    · exact .inl (drained_of_silent place (Nat.sub_le _ _) silent)

theorem Drained.next {copy : List Line} (drained : Drained copy n) (inside : n < copy.length) :
    ∃ line, copy[n]? = some line ∧ line.isInstruction = false ∧ Drained copy (n + 1) := by
  obtain ⟨-, silent⟩ := drained
  rw [List.drop_eq_getElem_cons inside] at silent
  obtain ⟨here, behind⟩ := List.forall_mem_cons.mp silent
  exact ⟨copy[n], List.getElem?_eq_getElem inside, here, inside, behind⟩

section Ending

variable {around : Surroundings} {called : Symbol → Prop} {limit steps : Nat} {cpu : Cpu}
  {after state : State} {outside : Nat → UInt16}

theorem drained_step (hosted : Hosted place body front host)
    (drained : Drained (splice place body).code n)
    (stepped : around.CopySteps limit place body front host outside ⟨front.length + n, cpu⟩
      after) :
    after = ⟨front.length + (n + 1), cpu⟩ ∧ Drained (splice place body).code (n + 1) := by
  obtain ⟨line, found, way⟩ := hosted.copySteps_iff.mp stepped
  obtain ⟨same, foundSame, silent, rest⟩ :=
    drained.next (List.getElem?_eq_some_iff.mp found).1
  obtain rfl := Option.some.inj (found.symm.trans foundSame)
  cases way with
  | passed => exact ⟨rfl, rest⟩
  | _ => contradiction

theorem drained_run (hosted : Hosted place body front host)
    (drained : Drained (splice place body).code n) :
    ∃ steps, Takes (around.CopySteps limit place body front host outside)
      ⟨front.length + n, cpu⟩ steps ⟨front.length + (splice place body).code.length, cpu⟩ := by
  obtain ⟨left, count⟩ := Nat.exists_eq_add_of_le drained.1
  induction left generalizing n with
  | zero =>
    rw [count]
    exact ⟨0, .start⟩
  | succ left ih =>
    obtain ⟨line, found, silent, rest⟩ := drained.next (by omega)
    have first : Takes (around.CopySteps limit place body front host outside)
        ⟨front.length + n, cpu⟩ 1 ⟨front.length + (n + 1), cpu⟩ :=
      Takes.start.next (hosted.copySteps_iff.mpr ⟨line, found, .passed silent⟩)
    obtain ⟨steps, run⟩ := ih rest (by omega)
    exact ⟨1 + steps, first.trans run⟩

theorem ends_step (hosted : Hosted place body front host) (ends : endsAt body.code n = true)
    (stepped : around.CopySteps limit place body front host outside
      ⟨front.length + copyIndex body.code n, cpu⟩ after) :
    ∃ last, after = ⟨front.length + last, cpu⟩ ∧ Drained (splice place body).code last := by
  rcases ends_cases place ends with drained | ⟨jump, last, behind, drained⟩
  · exact ⟨_, hosted.drained_step drained stepped⟩
  · obtain ⟨here, found, way⟩ := hosted.copySteps_iff.mp stepped
    have same := Option.some.inj (jump.symm.trans found)
    cases way with
    | passed silent =>
      rw [← same] at silent
      contradiction
    | @jumped mnemonic symbol target leaves jumps goes =>
      obtain ⟨rfl, rfl⟩ : .jmp = mnemonic ∧ spliceEnd place = symbol := by
        simpa [Line.direct, Line.on] using same
      obtain rfl : true = leaves := Option.some.inj jumps
      obtain rfl := Option.some.inj ((hosted.lineOf? behind).symm.trans goes)
      exact ⟨last, rfl, drained⟩
    | executed stays =>
      obtain rfl := Line.instruction.inj same
      contradiction
    | called => simp [Line.direct, Line.on] at same

theorem ends_run (hosted : Hosted place body front host) (ends : endsAt body.code n = true) :
    ∃ steps, Takes (around.CopySteps limit place body front host outside)
      ⟨front.length + copyIndex body.code n, cpu⟩ steps
      ⟨front.length + (splice place body).code.length, cpu⟩ := by
  rcases ends_cases place ends with drained | ⟨jump, last, behind, drained⟩
  · exact hosted.drained_run drained
  · have first : Takes (around.CopySteps limit place body front host outside)
        ⟨front.length + copyIndex body.code n, cpu⟩ 1 ⟨front.length + last, cpu⟩ :=
      Takes.start.next (hosted.copySteps_iff.mpr
        ⟨_, jump, .jumped true rfl (hosted.lineOf? behind)⟩)
    obtain ⟨steps, run⟩ := hosted.drained_run drained
    exact ⟨1 + steps, first.trans run⟩

theorem ends_of_copyIndex_eq (place : Symbol)
    (last : copyIndex body.code n = (splice place body).code.length) :
    endsAt body.code n = true := by
  by_contra running
  obtain ⟨line, found, stays⟩ := exists_of_endsAt (Bool.eq_false_iff.mpr running)
  rcases Emit.copyIndex_cases found with ⟨kept, -⟩ | ⟨returns, -⟩
  · have inside := (List.getElem?_eq_some_iff.mp kept).1
    have bound := length_kept_le place body
    omega
  · rw [stays] at returns
    contradiction

theorem run (hosted : Hosted place body front host)
    (ran : Takes (around.OwnSteps limit place body front outside) ⟨0, cpu⟩ steps state) :
    Takes (around.CopySteps limit place body front host outside) ⟨front.length, cpu⟩ steps
      ⟨front.length + copyIndex body.code state.line, state.cpu⟩ := by
  induction ran with
  | start =>
    rw [Emit.copyIndex_zero]
    exact .start
  | next _ stepped ih => exact ih.next (hosted.step stepped)

/-- A run of the copy is one of the body, as far as that goes. -/
theorem run_back (hosted : Hosted place body front host)
    (controlled : Controlled (fun _ => False) called body)
    (ran : Takes (around.CopySteps limit place body front host outside) ⟨front.length, cpu⟩ steps
      state) :
    ∃ fewer n, fewer ≤ steps ∧
      Takes (around.OwnSteps limit place body front outside) ⟨0, cpu⟩ fewer ⟨n, state.cpu⟩ ∧
      (fewer = steps ∧ state.line = front.length + copyIndex body.code n ∨
        endsAt body.code n = true ∧ ∃ last, state.line = front.length + last ∧
          Drained (splice place body).code last) := by
  -- Either both are at the same line, or the body has stopped and the copy passes its last labels.
  induction ran with
  | start =>
    refine ⟨0, 0, Nat.le_refl 0, .start, .inl ⟨rfl, ?_⟩⟩
    rw [Emit.copyIndex_zero]
    rfl
  | @next steps state after _ stepped ih =>
    obtain ⟨line, cpu⟩ := state
    obtain ⟨fewer, n, bound, before, place⟩ := ih
    rcases place with ⟨rfl, rfl⟩ | ⟨ends, last, rfl, drained⟩
    · cases ends : endsAt body.code n with
      | true =>
        obtain ⟨last, rfl, drained⟩ := hosted.ends_step ends stepped
        exact ⟨fewer, n, Nat.le_succ fewer, before, .inr ⟨ends, last, rfl, drained⟩⟩
      | false =>
        obtain ⟨next, steppedBack, rfl⟩ := hosted.step_back controlled ends stepped
        exact ⟨fewer + 1, next.line, Nat.le_refl _, before.next steppedBack, .inl ⟨rfl, rfl⟩⟩
    · obtain ⟨rfl, rest⟩ := hosted.drained_step drained stepped
      exact ⟨fewer, n, bound.trans (Nat.le_succ steps), before, .inr ⟨ends, last + 1, rfl, rest⟩⟩

end Ending

end Hosted

end Cartridge.Machine
