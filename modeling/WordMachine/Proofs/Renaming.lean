import Mathlib.Data.Set.Function
import WordMachine.Proofs.Integrity
import WordMachine.Proofs.ResolvedAgain

/-!
# The names of labels do not matter

Labels are told apart by their ids, and that is all the ids are for.  If the ids of some code are
replaced by others (`rename`), and different ones by different ones, then resolving comes to the
same outcome (`resolve_rename`): the same fault at the same position, or the same program except for
the ids, which its labels still carry.

A run does not come to see these ids.  Control stays on the instruction starts of resolved code, so
an id is never fetched as an opcode, and executing a label does not read its operand.  So a resolved
program and the relabelled one make the same steps (`Regular.run_relabel`).
-/

namespace WordMachine

variable {words : Array Word} {starts : List Nat} {p q : Program} {code : List Instruction}
  {d : Instruction} {f : Word → Word} {select pick : Op → Bool} {i j t : Nat} {id id' : Word}

namespace Label

/-! ## Renaming -/

/-- Words with the operand of each instruction of a selected operation replaced. -/
def rename (select : Op → Bool) (f : Word → Word) (words : Array Word) : Array Word :=
  words.mapIdx fun j w =>
    if (Program.startsFrom words 0).any fun i => i + 1 == j && (operandIf? words select i).isSome
    then f w
    else w

/-- A program with the ids of its labels replaced. -/
def relabel (f : Word → Word) (p : Program) : Program := ⟨rename (· == .label) f p.words⟩

/-- The ids in code: the operands of its labels, jumps and calls. -/
def ids (words : Array Word) : Set Word :=
  {id | ∃ i ∈ Program.startsFrom words 0, operandIf? words Op.takesLabel i = some id}

@[simp] theorem size_rename (select : Op → Bool) (f : Word → Word) (words : Array Word) :
    (rename select f words).size = words.size := Array.size_mapIdx

/-- The operands of the selected instructions are replaced. -/
theorem getElem?_rename_of_operand (hi : i ∈ Program.startsFrom words 0)
    (hoperand : operandIf? words select i = some id) :
    (rename select f words)[i + 1]? = some (f id) := by
  obtain ⟨op, -, -, hword⟩ := operandIf?_eq_some_iff.mp hoperand
  have hany : ((Program.startsFrom words 0).any
      fun k => k + 1 == i + 1 && (operandIf? words select k).isSome) = true :=
    List.any_eq_true.mpr ⟨i, hi, by simp [hoperand]⟩
  rw [rename, Array.getElem?_mapIdx, hword]
  simp only [hany, if_true, Option.map_some]

/-- All other words are kept. -/
theorem getElem?_rename_of_not_operand
    (hj : ∀ i ∈ Program.startsFrom words 0, ∀ id, operandIf? words select i = some id →
      j ≠ i + 1) :
    (rename select f words)[j]? = words[j]? := by
  have hany : ((Program.startsFrom words 0).any
      fun k => k + 1 == j && (operandIf? words select k).isSome) = false := by
    refine List.any_eq_false.mpr fun k hk hboth => ?_
    obtain ⟨hsame, hsome⟩ := Bool.and_eq_true_iff.mp hboth
    obtain ⟨id, hid⟩ := Option.isSome_iff_exists.mp hsome
    exact hj k hk id hid (eq_of_beq hsame).symm
  rw [rename, Array.getElem?_mapIdx]
  simp only [hany, Bool.false_eq_true, if_false, Option.map_id']

/-! ## Reading renamed words -/

section Reading

variable (hselect : ∀ op, select op = true → op.operandCount = 1)
include hselect

/-- No instruction starts at an operand. -/
theorem ne_succ_of_operand (hi : i ∈ Program.startsFrom words 0)
    (hj : j ∈ Program.startsFrom words 0) (hoperand : operandIf? words select i = some id) :
    j ≠ i + 1 := by
  obtain ⟨op, hop, hword, -⟩ := operandIf?_eq_some_iff.mp hoperand
  intro hsame
  have hopcode : words[i]?.bind Op.ofOpcode? = some op := by simp [hword]
  have hlt := Program.add_operandCount_lt_of_mem_startsFrom hi hj (by omega) hopcode
  rw [hselect op hop] at hlt
  omega

theorem getElem?_rename_start (hi : i ∈ Program.startsFrom words 0) :
    (rename select f words)[i]? = words[i]? :=
  getElem?_rename_of_not_operand fun _ hk _ hoperand => ne_succ_of_operand hselect hk hi hoperand

theorem walk_rename : walk (rename select f words) = walk words :=
  walkFrom_congr (size_rename ..) fun _ hi => getElem?_rename_start hselect hi

/-- Some of the replaced operands, read from renamed words. -/
theorem operandIf?_rename_eq_some_iff (hi : i ∈ Program.startsFrom words 0)
    (hpick : ∀ op, pick op = true → select op = true) :
    operandIf? (rename select f words) pick i = some id' ↔
      ∃ id, operandIf? words pick i = some id ∧ f id = id' := by
  have hoperand : ∀ {op id}, pick op = true → words[i]? = some op.opcode →
      words[i + 1]? = some id → (rename select f words)[i + 1]? = some (f id) :=
    fun hop hopcode hid => getElem?_rename_of_operand hi
      (operandIf?_eq_some_iff.mpr ⟨_, hpick _ hop, hopcode, hid⟩)
  constructor
  · intro hrenamed
    obtain ⟨op, hop, hopcode, hid'⟩ := operandIf?_eq_some_iff.mp hrenamed
    rw [getElem?_rename_start hselect hi] at hopcode
    have hlt : i + 1 < words.size := by
      rw [← size_rename select f words]
      exact (Array.getElem?_eq_some_iff.mp hid').1
    have hid : words[i + 1]? = some words[i + 1] := Array.getElem?_eq_getElem hlt
    rw [hoperand hop hopcode hid, Option.some.injEq] at hid'
    exact ⟨_, operandIf?_eq_some_iff.mpr ⟨op, hop, hopcode, hid⟩, hid'⟩
  · rintro ⟨id, hbefore, rfl⟩
    obtain ⟨op, hop, hopcode, hid⟩ := operandIf?_eq_some_iff.mp hbefore
    refine operandIf?_eq_some_iff.mpr ⟨op, hop, ?_, hoperand hop hopcode hid⟩
    rw [getElem?_rename_start hselect hi]
    exact hopcode

/-- The words of an instruction that is not selected are kept. -/
theorem getElem?_rename_of_not_selected (hi : i ∈ Program.startsFrom words 0)
    (hdecode : decode? words i = some d) (hop : ¬ select d.op = true) {k : Nat}
    (hk : k < d.width) : (rename select f words)[i + k]? = words[i + k]? := by
  have hopcode : words[i]?.bind Op.ofOpcode? = some d.op := by
    simp [getElem?_of_decode?_opcode hdecode]
  apply getElem?_rename_of_not_operand
  intro j hj id hoperand hsame
  simp only [Instruction.width] at hk
  -- the operand would have to belong to an instruction that overlaps with this one
  rcases Nat.lt_trichotomy j i with hlt | rfl | hgt
  · have := ne_succ_of_operand hselect hj hi hoperand
    omega
  · obtain ⟨op, hselected, hword, -⟩ := operandIf?_eq_some_iff.mp hoperand
    rw [hword, Option.bind_some, Op.ofOpcode?_opcode, Option.some.injEq] at hopcode
    rw [hopcode] at hselected
    exact hop hselected
  · have := Program.add_operandCount_lt_of_mem_startsFrom hi hj hgt hopcode
    omega

end Reading

/-! ## Labels and references in renamed words -/

theorem takesLabel_iff {op : Op} :
    op.takesLabel = true ↔ op = .label ∨ op.refersToLabel = true := by
  constructor
  · intro hop
    cases op with
    | label => exact Or.inl rfl
    | jump condition => exact Or.inr rfl
    | call => exact Or.inr rfl
    | binary _ mode | compare mode | store _ mode | load _ mode => cases mode <;> cases hop
    | _ => cases hop
  · rintro (rfl | hop)
    · rfl
    · rw [Op.takesLabel, hop, Bool.true_or]

theorem operandIf?_takesLabel_iff :
    operandIf? words Op.takesLabel i = some id ↔
      Defines words i id ∨ (Jumps words i id ∨ Calls words i id) := by
  rw [← referenceAt?_eq_some_iff_refers, referenceAt?]
  simp only [operandIf?_eq_some_iff, takesLabel_iff, or_and_right, exists_or, exists_eq_left,
    Defines]

theorem defines_rename_iff (hi : i ∈ Program.startsFrom words 0) :
    Defines (rename Op.takesLabel f words) i id' ↔ ∃ id, Defines words i id ∧ f id = id' := by
  simp only [← markerAt?_eq_some_iff_defines, markerAt?]
  exact operandIf?_rename_eq_some_iff (fun _ => operandCount_of_takesLabel) hi
    fun op hop => takesLabel_iff.mpr (Or.inl (eq_of_beq hop))

theorem refers_rename_iff (hi : i ∈ Program.startsFrom words 0) :
    Jumps (rename Op.takesLabel f words) i id' ∨ Calls (rename Op.takesLabel f words) i id' ↔
      ∃ id, (Jumps words i id ∨ Calls words i id) ∧ f id = id' := by
  simp only [← referenceAt?_eq_some_iff_refers, referenceAt?]
  exact operandIf?_rename_eq_some_iff (fun _ => operandCount_of_takesLabel) hi
    fun op hop => takesLabel_iff.mpr (Or.inr hop)

theorem mem_ids_of_defines (hi : i ∈ Program.startsFrom words 0) (hdefines : Defines words i id) :
    id ∈ ids words :=
  ⟨i, hi, operandIf?_takesLabel_iff.mpr (Or.inl hdefines)⟩

theorem mem_ids_of_refers (hi : i ∈ Program.startsFrom words 0)
    (hrefers : Jumps words i id ∨ Calls words i id) : id ∈ ids words :=
  ⟨i, hi, operandIf?_takesLabel_iff.mpr (Or.inr hrefers)⟩

/-! ## The outcome of resolving renamed words -/

section Faults

variable (hf : Set.InjOn f (ids words))
include hf

/-- A label repeats the id of another one if it has done so before the renaming. -/
theorem repeats_rename_iff :
    Repeats (rename Op.takesLabel f words) (Program.startsFrom words 0) i id' ↔
      ∃ id, Repeats words (Program.startsFrom words 0) i id ∧ f id = id' := by
  constructor
  · rintro ⟨hi, hdefines, j, hj, hlt, hearlier⟩
    obtain ⟨id, hid, rfl⟩ := (defines_rename_iff hi).mp hdefines
    obtain ⟨other, hother, hsame⟩ := (defines_rename_iff hj).mp hearlier
    obtain rfl := hf (mem_ids_of_defines hj hother) (mem_ids_of_defines hi hid) hsame
    exact ⟨other, ⟨hi, hid, j, hj, hlt, hother⟩, rfl⟩
  · rintro ⟨id, ⟨hi, hdefines, j, hj, hlt, hearlier⟩, rfl⟩
    exact ⟨hi, (defines_rename_iff hi).mpr ⟨id, hdefines, rfl⟩, j, hj, hlt,
      (defines_rename_iff hj).mpr ⟨id, hearlier, rfl⟩⟩

/-- A reference is left without its label if it has been so before the renaming. -/
theorem dangles_rename_iff :
    Dangles (rename Op.takesLabel f words) (Program.startsFrom words 0) i id' ↔
      ∃ id, Dangles words (Program.startsFrom words 0) i id ∧ f id = id' := by
  constructor
  · rintro ⟨hi, hrefers, hmissing⟩
    obtain ⟨id, hid, rfl⟩ := (refers_rename_iff hi).mp hrefers
    refine ⟨id, ⟨hi, hid, fun j hj hdefines => hmissing j hj ?_⟩, rfl⟩
    exact (defines_rename_iff hj).mpr ⟨id, hdefines, rfl⟩
  · rintro ⟨id, ⟨hi, hrefers, hmissing⟩, rfl⟩
    refine ⟨hi, (refers_rename_iff hi).mpr ⟨id, hrefers, rfl⟩, fun j hj hdefines => ?_⟩
    obtain ⟨other, hother, hsame⟩ := (defines_rename_iff hj).mp hdefines
    obtain rfl := hf (mem_ids_of_defines hj hother) (mem_ids_of_refers hi hrefers) hsame
    exact hmissing j hj hother

theorem exists_repeats_rename_iff :
    (∃ id', Repeats (rename Op.takesLabel f words) (Program.startsFrom words 0) i id') ↔
      ∃ id, Repeats words (Program.startsFrom words 0) i id := by
  simp only [repeats_rename_iff hf]
  exact ⟨fun ⟨_, id, h, _⟩ => ⟨id, h⟩, fun ⟨id, h⟩ => ⟨f id, id, h, rfl⟩⟩

theorem not_repeats_rename
    (hfresh : ∀ i id, ¬ Repeats words (Program.startsFrom words 0) i id) (i : Nat) (id' : Word) :
    ¬ Repeats (rename Op.takesLabel f words) (Program.startsFrom words 0) i id' := by
  intro hrepeats
  obtain ⟨id, hid, -⟩ := (repeats_rename_iff hf).mp hrepeats
  exact hfresh i id hid

theorem exists_dangles_rename_iff :
    (∃ id', Dangles (rename Op.takesLabel f words) (Program.startsFrom words 0) i id') ↔
      ∃ id, Dangles words (Program.startsFrom words 0) i id := by
  simp only [dangles_rename_iff hf]
  exact ⟨fun ⟨_, id, h, _⟩ => ⟨id, h⟩, fun ⟨id, h⟩ => ⟨f id, id, h, rfl⟩⟩

theorem not_dangles_rename
    (hbound : ∀ i id, ¬ Dangles words (Program.startsFrom words 0) i id) (i : Nat) (id' : Word) :
    ¬ Dangles (rename Op.takesLabel f words) (Program.startsFrom words 0) i id' := by
  intro hdangles
  obtain ⟨id, hid, -⟩ := (dangles_rename_iff hf).mp hdangles
  exact hbound i id hid

end Faults

/-! ## The program that renamed words become -/

theorem offset_rename (hi : i ∈ Program.startsFrom words 0) (t : Nat) :
    offset (rename Op.takesLabel f words) i t = offset words i t := by
  unfold offset
  rw [getElem?_rename_start (fun _ => operandCount_of_takesLabel) hi]

namespace Rewritten

/-! ### The renamed program word by word -/

variable (h : Rewritten words (Program.startsFrom words 0) p)
  (hrenamed : Rewritten (rename Op.takesLabel f words) (Program.startsFrom words 0) q)
include h

theorem startsFrom_eq : Program.startsFrom p.words 0 = Program.startsFrom words 0 :=
  startsFrom_of_walk h.walk_eq

theorem operandIf?_label_iff (hi : i ∈ Program.startsFrom words 0) :
    operandIf? p.words (· == .label) i = some id ↔ Defines words i id := by
  rw [← h.defines_iff hi]
  exact markerAt?_eq_some_iff_defines

include hrenamed

/-- Behind a jump or a call both programs have the word that leads to the same label. -/
theorem getElem?_of_refers (hi : i ∈ Program.startsFrom words 0)
    (hrefers : Jumps words i id ∨ Calls words i id) :
    q.words[i + 1]? = (relabel f p).words[i + 1]? := by
  obtain ⟨t, hdefined, hword⟩ := h.refers i hi id hrefers
  obtain ⟨u, hother, hword'⟩ :=
    hrenamed.refers i hi (f id) ((refers_rename_iff hi).mpr ⟨id, hrefers, rfl⟩)
  have htarget : t = u :=
    hother.2.2 t hdefined.1 ((defines_rename_iff hdefined.1).mpr ⟨id, hdefined.2.1, rfl⟩)
  have hkept : (relabel f p).words[i + 1]? = p.words[i + 1]? := by
    apply getElem?_rename_of_not_operand
    rw [h.startsFrom_eq]
    intro k hk id' hoperand hsame
    obtain rfl : i = k := by omega
    exact not_refers_of_label ((h.operandIf?_label_iff hk).mp hoperand).1 hrefers
  rw [hkept, hword, hword', htarget, offset_rename hi]

/-- All other words of unresolved code are kept. -/
theorem getElem?_of_not_refers
    (hj : ∀ i ∈ Program.startsFrom words 0, ∀ id, Jumps words i id ∨ Calls words i id →
      j ≠ i + 1) :
    q.words[j]? = (rename Op.takesLabel f words)[j]? ∧ p.words[j]? = words[j]? := by
  refine ⟨hrenamed.keep j fun i hi id' hid' => ?_, h.keep j hj⟩
  obtain ⟨id, hid, -⟩ := (refers_rename_iff hi).mp hid'
  exact hj i hi id hid

/-- The program that renamed words become is the one that the words become, except for the ids of
its labels. -/
theorem eq_relabel : q = relabel f p := by
  have hwords : q.words = (relabel f p).words := by
    refine Array.ext_getElem? fun j => ?_
    by_cases hrefers : ∃ i ∈ Program.startsFrom words 0, ∃ id,
        (Jumps words i id ∨ Calls words i id) ∧ j = i + 1
    · obtain ⟨i, hi, id, hid, rfl⟩ := hrefers
      exact h.getElem?_of_refers hrenamed hi hid
    · have hnot : ∀ i ∈ Program.startsFrom words 0, ∀ id,
          Jumps words i id ∨ Calls words i id → j ≠ i + 1 :=
        fun i hi id hid hsame => hrefers ⟨i, hi, id, hid, hsame⟩
      obtain ⟨hq, hp⟩ := h.getElem?_of_not_refers hrenamed hnot
      rw [hq]
      by_cases hlabel : ∃ i ∈ Program.startsFrom words 0, ∃ id, Defines words i id ∧ j = i + 1
      · obtain ⟨i, hi, id, hid, rfl⟩ := hlabel
        rw [getElem?_rename_of_operand hi (operandIf?_takesLabel_iff.mpr (Or.inl hid))]
        exact (getElem?_rename_of_operand (h.startsFrom_eq ▸ hi)
          ((h.operandIf?_label_iff hi).mpr hid)).symm
      · have hkept : (rename Op.takesLabel f words)[j]? = words[j]? := by
          apply getElem?_rename_of_not_operand
          intro i hi id hoperand hsame
          rcases operandIf?_takesLabel_iff.mp hoperand with hid | hid
          · exact hlabel ⟨i, hi, id, hid, hsame⟩
          · exact hnot i hi id hid hsame
        have hkept' : (relabel f p).words[j]? = p.words[j]? := by
          apply getElem?_rename_of_not_operand
          rw [h.startsFrom_eq]
          intro i hi id hoperand hsame
          exact hlabel ⟨i, hi, id, (h.operandIf?_label_iff hi).mp hoperand, hsame⟩
        rw [hkept, hkept', hp]
  cases q
  exact congrArg Program.mk hwords

end Rewritten

/-- The error with its id, if it has one, replaced. -/
def mapId (f : Word → Word) : LabelError → LabelError
  | .redefined id i => .redefined (f id) i
  | .undefined id i => .undefined (f id) i
  | .malformed cause => .malformed cause

/-- Resolving comes to the same outcome for renamed words. -/
theorem resolve_rename (hf : Set.InjOn f (ids words)) :
    resolve (rename Op.takesLabel f words) =
      match resolve words with
      | .ok p => .ok (relabel f p)
      | .error e => .error (mapId f e) := by
  have hcount : ∀ op : Op, op.takesLabel = true → op.operandCount = 1 :=
    fun _ => operandCount_of_takesLabel
  cases hwalk : walk words with
  | error e =>
      have hmalformed : resolve words = .error (.malformed e) := by simp only [resolve, hwalk]
      rw [hmalformed, resolve, walk_rename hcount, hwalk]
      rfl
  | ok starts =>
      obtain rfl := startsFrom_of_walk hwalk
      have hrenamed : walk (rename Op.takesLabel f words) = .ok (Program.startsFrom words 0) := by
        rw [walk_rename hcount, hwalk]
      rcases resolve_cases hwalk with
        ⟨i, id, hleast, hrepeats, hresolve⟩ |
        ⟨hfresh, ⟨i, id, hleast, hdangles, hresolve⟩ | ⟨hbound, -, out, -, -, hresolve⟩⟩
      · rw [hresolve]
        apply resolve_of_repeats hrenamed
        · simpa only [exists_repeats_rename_iff hf] using hleast
        · exact (repeats_rename_iff hf).mpr ⟨id, hrepeats, rfl⟩
      · rw [hresolve]
        apply resolve_of_dangles hrenamed (not_repeats_rename hf hfresh)
        · simpa only [exists_dangles_rename_iff hf] using hleast
        · exact (dangles_rename_iff hf).mpr ⟨id, hdangles, rfl⟩
      · obtain ⟨q, hq⟩ := exists_resolve_of_clear hrenamed (not_repeats_rename hf hfresh)
          (not_dangles_rename hf hbound)
        obtain ⟨starts, hstarts, h⟩ := rewritten_of_resolve hresolve
        obtain ⟨starts', hstarts', h'⟩ := rewritten_of_resolve hq
        obtain rfl := Except.ok.inj (hwalk.symm.trans hstarts)
        obtain rfl := Except.ok.inj (hrenamed.symm.trans hstarts')
        rw [hq, hresolve, h.eq_relabel h']

end Label

/-! ## Runs -/

section Runs

variable {σ : Type} {host : Host σ} {m : Machine}

/-- An instruction with its operand replaced, if its operation is selected. -/
def Instruction.rename (select : Op → Bool) (f : Word → Word) (d : Instruction) : Instruction :=
  if select d.op then { d with first := f d.first } else d

/-- An instruction of renamed words. -/
theorem decode?_rename (hselect : ∀ op, select op = true → op.operandCount = 1)
    (hi : i ∈ Program.startsFrom words 0) (hdecode : decode? words i = some d) :
    decode? (Label.rename select f words) i = some (d.rename select f) := by
  obtain ⟨hposition, hnormal, hwords⟩ := decode?_eq_some_iff.mp hdecode
  have hopcode := getElem?_of_decode?_opcode hdecode
  rw [decode?_eq_some_iff]
  unfold Instruction.rename
  split
  · next hop =>
    have hcount := hselect d.op hop
    refine ⟨hposition, ⟨fun hzero => ?_, hnormal.2⟩, fun k hk => ?_⟩
    · rw [hcount] at hzero
      cases hzero
    · simp only [Instruction.width, hcount] at hk
      obtain rfl | rfl : k = 0 ∨ k = 1 := by omega
      · rw [Nat.add_zero, Label.getElem?_rename_start hselect hi, hopcode]
        rfl
      · have hoperand : Label.operandIf? words select i = some d.first := by
          rw [Label.operandIf?_of_decode? hdecode (by omega), if_pos hop]
        rw [Label.getElem?_rename_of_operand hi hoperand,
          Instruction.getElem?_words_one (by simp only; omega)]
  · next hop =>
    refine ⟨hposition, hnormal, fun k hk => ?_⟩
    rw [Label.getElem?_rename_of_not_selected hselect hi hdecode hop hk, hwords k hk]

/-- Executing a label does not read its operand. -/
theorem execute_rename (f : Word → Word) (d : Instruction) :
    Machine.execute (d.rename (· == .label) f) = Machine.execute d := by
  unfold Instruction.rename
  split
  · next hop =>
    have hlabel : d.op = .label := eq_of_beq hop
    simp only [Machine.execute, Machine.perform, hlabel]
  · rfl

theorem enter_rename (m : Machine) (d : Instruction) :
    m.enter (d.rename select f) = m.enter d := by
  unfold Instruction.rename
  split <;> rfl

namespace Regular

/-- Where a program has an instruction, the relabelled program does the same. -/
theorem begin_relabel (hregular : Regular p code) (hd : d ∈ code)
    (hpointer : m.cpu.pointer = Word.ofCount d.position) :
    Machine.begin (Label.relabel f p) m = Machine.begin p m := by
  have hsmall := hregular.position_lt hd
  have hdecode := hregular.reads.decode?_of_mem hd
  have hrenamed : decode? (Label.relabel f p).words d.position =
      some (d.rename (· == .label) f) := by
    refine decode?_rename (fun op hop => ?_) (hregular.reads.mem_startsFrom hd) hdecode
    rw [eq_of_beq hop]
    rfl
  have hfetch := Machine.fetch_of_decode? hpointer hsmall hdecode
  have hfetch' := Machine.fetch_of_decode? hpointer hsmall hrenamed
  cases hlimit : m.cpu.reachedLimit? with
  | some limit =>
      simp only [hlimit] at hfetch hfetch'
      simp only [Machine.begin, hfetch, hfetch']
  | none =>
      simp only [hlimit] at hfetch hfetch'
      simp only [Machine.begin, hfetch, hfetch', execute_rename, enter_rename]

theorem step_relabel (hregular : Regular p code)
    (hwithin : Within p (fun i => p.starts.has i = true) m) (hrunning : m.cpu.isRunning = true)
    (s : σ) : Machine.step host (Label.relabel f p) m s = Machine.step host p m s := by
  obtain ⟨d, hd, -, hpointer⟩ := hwithin.exists_mem hregular (region_starts p) hrunning
  unfold Machine.step
  rw [hregular.begin_relabel hd hpointer]

/-- From a state within the code, both programs make the same steps. -/
theorem advance_relabel (hregular : Regular p code) (n : Nat)
    (hwithin : Within p (fun i => p.starts.has i = true) m) (s : σ) :
    Machine.advance host (Label.relabel f p) n m s = Machine.advance host p n m s := by
  induction n generalizing m s with
  | zero => rfl
  | succ n ih =>
      rw [Machine.advance_succ, Machine.advance_succ]
      by_cases hrunning : m.cpu.isRunning = true
      · rw [if_pos hrunning, if_pos hrunning, hregular.step_relabel hwithin hrunning]
        cases hstep : Machine.step host p m s with
        | mk c trap? =>
            cases trap? with
            | none => exact ih (hwithin.step hregular (region_starts p) hrunning hstep) c.2
            | some t => rfl
      · rw [if_neg hrunning, if_neg hrunning]

/-- A regular program and the relabelled one run alike. -/
theorem run_relabel (hregular : Regular p code) (host : Host σ) (n : Nat) (m : Machine) (s : σ) :
    Machine.run host (Label.relabel f p) n m s = Machine.run host p n m s := by
  have hstart : m.start (Label.relabel f p) = m.start p := by
    simp only [Machine.start, Cpu.load, Program.size, Label.relabel, Label.size_rename]
  have hwithin : Within p (fun i => p.starts.has i = true) (m.start p) :=
    .loaded hregular (fun h => h) { m with memory := m.memory.reset }
  unfold Machine.run
  rw [hstart, hregular.advance_relabel n hwithin]

end Regular

end Runs

/-- The names of labels do not matter.  Other ids that are told apart like the ids in some code lead
to the same outcome of resolving, up to the ids that errors and labels carry, and the program runs
as it did. -/
theorem resolve_and_run_of_renamed (hf : Set.InjOn f (Label.ids words)) :
    (Label.resolve (Label.rename Op.takesLabel f words) =
      match Label.resolve words with
      | .ok p => .ok (Label.relabel f p)
      | .error e => .error (Label.mapId f e)) ∧
    (words.size < 0x7fffffff → DisciplinedCode words → ∀ p, Label.resolve words = .ok p →
      ∀ {σ : Type} (host : Host σ) (n : Nat) (m : Machine) (s : σ),
        Machine.run host (Label.relabel f p) n m s = Machine.run host p n m s) := by
  refine ⟨Label.resolve_rename hf, ?_⟩
  intro hsmall hwords p hresolve σ host n m s
  obtain ⟨code, hresolved⟩ := exists_resolved hsmall hresolve hwords
  exact hresolved.regular.run_relabel host n m s

/-- The ids 7 and 9 are replaced by words that are opcodes. -/
theorem resolve_and_run_of_renamed_of_opcodes :
    Set.InjOn (fun id => if id = 7 then (32 : Word) else 19)
        (Label.ids #[19, 7, 32, 18, 7, 30, 9, 32, 18, 9, 31]) ∧
      DisciplinedCode #[19, 7, 32, 18, 7, 30, 9, 32, 18, 9, 31] ∧
      Label.resolve #[19, 7, 32, 18, 7, 30, 9, 32, 18, 9, 31] =
        .ok ⟨#[19, 3, 32, 18, 7, 30, 7, 32, 18, 9, 31]⟩ ∧
      Label.resolve #[19, 32, 32, 18, 32, 30, 19, 32, 18, 19, 31] =
        .ok ⟨#[19, 3, 32, 18, 32, 30, 7, 32, 18, 19, 31]⟩ ∧
      Machine.run ScriptedHost.answer ⟨#[19, 3, 32, 18, 32, 30, 7, 32, 18, 19, 31]⟩ 5
          (Machine.new { memorySize := 0 }) {} =
        Machine.run ScriptedHost.answer ⟨#[19, 3, 32, 18, 7, 30, 7, 32, 18, 9, 31]⟩ 5
          (Machine.new { memorySize := 0 }) {} := by
  have hstarts : Program.startsFrom #[19, 7, 32, 18, 7, 30, 9, 32, 18, 9, 31] 0 =
      [0, 2, 3, 5, 7, 8, 10] := by
    with_unfolding_all rfl
  have hids : ∀ i ∈ [0, 2, 3, 5, 7, 8, 10],
      Label.operandIf? #[19, 7, 32, 18, 7, 30, 9, 32, 18, 9, 31] Op.takesLabel i = none ∨
        Label.operandIf? #[19, 7, 32, 18, 7, 30, 9, 32, 18, 9, 31] Op.takesLabel i = some 7 ∨
        Label.operandIf? #[19, 7, 32, 18, 7, 30, 9, 32, 18, 9, 31] Op.takesLabel i = some 9 := by
    decide
  have hinj : Set.InjOn (fun id => if id = 7 then (32 : Word) else 19)
      (Label.ids #[19, 7, 32, 18, 7, 30, 9, 32, 18, 9, 31]) := by
    have hcases : ∀ id ∈ Label.ids #[19, 7, 32, 18, 7, 30, 9, 32, 18, 9, 31],
        id = 7 ∨ id = 9 := by
      rintro id ⟨i, hi, hoperand⟩
      rw [hstarts] at hi
      simpa [hoperand] using hids i hi
    intro a ha b hb hsame
    rcases hcases a ha with rfl | rfl <;> rcases hcases b hb with rfl | rfl
    · rfl
    · exact absurd hsame (by decide)
    · exact absurd hsame (by decide)
    · rfl
  have hdisciplined : DisciplinedCode #[19, 7, 32, 18, 7, 30, 9, 32, 18, 9, 31] := by
    decide +kernel
  have hresolve : Label.resolve #[19, 7, 32, 18, 7, 30, 9, 32, 18, 9, 31] =
      .ok ⟨#[19, 3, 32, 18, 7, 30, 7, 32, 18, 9, 31]⟩ := by
    with_unfolding_all rfl
  have hrename : Label.rename Op.takesLabel (fun id => if id = 7 then (32 : Word) else 19)
      #[19, 7, 32, 18, 7, 30, 9, 32, 18, 9, 31] =
        #[19, 32, 32, 18, 32, 30, 19, 32, 18, 19, 31] := by
    decide +kernel
  have hrelabel : Label.relabel (fun id => if id = 7 then (32 : Word) else 19)
      ⟨#[19, 3, 32, 18, 7, 30, 7, 32, 18, 9, 31]⟩ =
        ⟨#[19, 3, 32, 18, 32, 30, 7, 32, 18, 19, 31]⟩ := by
    decide +kernel
  obtain ⟨houtcome, hrun⟩ := resolve_and_run_of_renamed hinj
  rw [hrename, hresolve] at houtcome
  have hruns := hrun (by decide) hdisciplined _ hresolve ScriptedHost.answer 5
    (Machine.new { memorySize := 0 }) {}
  rw [hrelabel] at hruns
  exact ⟨hinj, hdisciplined, hresolve, houtcome.trans (congrArg _ hrelabel), hruns⟩

end WordMachine
