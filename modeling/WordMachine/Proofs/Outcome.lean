import Mathlib.Order.Bounds.Basic
import WordMachine.Proofs.Resolution

/-!
# Which outcome resolving has

`Label.resolve` reads a sequence of words three times: once to find the instruction starts, once for
the labels and once for the references.  Each reading stops at the first fault of its kind, and the
second one comes before the third.  Here the outcome is told from the words alone, by what stands at
the instruction starts:

* `Repeats`: a label whose id an earlier label carries;
* `Dangles`: a jump or a call whose id no label carries;
* `Patched`: the program, word by word, if there is neither.

`resolve_outcome` says that these are all the outcomes and when each of them arises.
-/

namespace WordMachine.Label

variable {words : Array Word} {starts : List Nat} {i : Nat} {id : Word}

/-! ## What stands at a position -/

/-- A label with an id stands at a position. -/
def Defines (words : Array Word) (i : Nat) (id : Word) : Prop :=
  words[i]? = some Op.label.opcode ∧ words[i + 1]? = some id

/-- A jump with an id as its operand stands at a position. -/
def Jumps (words : Array Word) (i : Nat) (id : Word) : Prop :=
  ∃ condition, words[i]? = some (Op.jump condition).opcode ∧ words[i + 1]? = some id

/-- A call with an id as its operand stands at a position. -/
def Calls (words : Array Word) (i : Nat) (id : Word) : Prop :=
  words[i]? = some Op.call.opcode ∧ words[i + 1]? = some id

/-- The label at a position repeats the id of a label before it. -/
def Repeats (words : Array Word) (starts : List Nat) (i : Nat) (id : Word) : Prop :=
  i ∈ starts ∧ Defines words i id ∧ ∃ j ∈ starts, j < i ∧ Defines words j id

/-- The jump or the call at a position has an id that no label carries. -/
def Dangles (words : Array Word) (starts : List Nat) (i : Nat) (id : Word) : Prop :=
  i ∈ starts ∧ (Jumps words i id ∨ Calls words i id) ∧ ∀ j ∈ starts, ¬ Defines words j id

/-- The one label with an id stands at a position. -/
def DefinedAt (words : Array Word) (starts : List Nat) (id : Word) (t : Nat) : Prop :=
  t ∈ starts ∧ Defines words t id ∧ ∀ u ∈ starts, Defines words u id → u = t

/-- The program that unresolved words with the given instruction starts become. -/
structure Patched (words : Array Word) (starts : List Nat) (p : Program) : Prop where
  size_eq : p.size = words.size
  /-- After a jump stands the distance from it to its label. -/
  jump : ∀ i ∈ starts, ∀ id, Jumps words i id → ∃ t w, DefinedAt words starts id t ∧
    p.words[i + 1]? = some w ∧ w.toInt = (t : Int) - i
  /-- After a call stands the position before its label. -/
  call : ∀ i ∈ starts, ∀ id, Calls words i id → ∃ t w, DefinedAt words starts id t ∧
    p.words[i + 1]? = some w ∧ w.toInt = (t : Int) - 1
  /-- All other words are as they were. -/
  keep : ∀ j, (∀ i ∈ starts, ∀ id, Jumps words i id ∨ Calls words i id → j ≠ i + 1) →
    p.words[j]? = words[j]?
  walk_eq : walk p.words = .ok starts
  check_eq : Program.check p.words = .ok p

theorem operandIf?_eq_some_iff {select : Op → Bool} :
    operandIf? words select i = some id ↔
      ∃ op, select op = true ∧ words[i]? = some op.opcode ∧ words[i + 1]? = some id := by
  simp only [operandIf?, Option.bind_eq_some_iff, Op.ofOpcode?_eq_some]
  constructor
  · rintro ⟨op, ⟨w, hw, rfl⟩, hoperand⟩
    split at hoperand
    · next hselect => exact ⟨op, hselect, hw, hoperand⟩
    · cases hoperand
  · rintro ⟨op, hselect, hw, hoperand⟩
    exact ⟨op, ⟨_, hw, rfl⟩, by rw [if_pos hselect, hoperand]⟩

theorem markerAt?_eq_some_iff_defines : markerAt? words i = some id ↔ Defines words i id := by
  simp only [markerAt?, operandIf?_eq_some_iff, beq_iff_eq, exists_eq_left, Defines]

theorem referenceAt?_eq_some_iff_refers :
    referenceAt? words i = some id ↔ Jumps words i id ∨ Calls words i id := by
  rw [referenceAt?, operandIf?_eq_some_iff]
  constructor
  · rintro ⟨op, hop, hopcode, hoperand⟩
    rcases jump_or_call_of_refersToLabel hop with ⟨condition, rfl⟩ | rfl
    · exact Or.inl ⟨condition, hopcode, hoperand⟩
    · exact Or.inr ⟨hopcode, hoperand⟩
  · rintro (⟨condition, hopcode, hoperand⟩ | ⟨hopcode, hoperand⟩)
    · exact ⟨_, rfl, hopcode, hoperand⟩
    · exact ⟨_, rfl, hopcode, hoperand⟩

/-! ## The first fault -/

/-- Instructions are listed in the order of their positions. -/
theorem pairwise_position {code : List Instruction} (hreads : Reads words i code) :
    (code.map Instruction.position).Pairwise (· < ·) := by
  rw [← startsFrom_of_reads hreads]
  exact Program.pairwise_startsFrom ..

/-- In an ascending list the first element with a property is the least one. -/
theorem isLeast_of_split {before after : List Nat} {P : Nat → Prop}
    (hsplit : starts = before ++ i :: after) (hsorted : starts.Pairwise (· < ·)) (hi : P i)
    (hbefore : ∀ j ∈ before, ¬ P j) (hmem : ∀ j, P j → j ∈ starts) : IsLeast {j | P j} i := by
  rw [hsplit] at hsorted hmem
  refine ⟨hi, fun j hj => ?_⟩
  rcases List.mem_append.mp (hmem j hj) with hearlier | hlater
  · exact absurd hj (hbefore j hearlier)
  · rcases List.mem_cons.mp hlater with rfl | hbehind
    · exact Nat.le_refl _
    · have hrest := (List.pairwise_append.mp hsorted).2.1
      exact Nat.le_of_lt (List.rel_of_pairwise_cons hrest hbehind)

/-- In an ascending list, what stands before an element is what is less. -/
theorem mem_before_iff_lt {before after : List Nat} (hsplit : starts = before ++ i :: after)
    (hsorted : starts.Pairwise (· < ·)) {j : Nat} : j ∈ before ↔ j ∈ starts ∧ j < i := by
  rw [hsplit] at hsorted ⊢
  obtain ⟨-, hrest, hacross⟩ := List.pairwise_append.mp hsorted
  constructor
  · intro hj
    exact ⟨List.mem_append_left _ hj, hacross j hj i (List.mem_cons_self ..)⟩
  · rintro ⟨hj, hlt⟩
    rcases List.mem_append.mp hj with hmem | hmem
    · exact hmem
    · rcases List.mem_cons.mp hmem with rfl | hbehind
      · exact absurd hlt (Nat.lt_irrefl _)
      · exact absurd hlt (Nat.lt_asymm (List.rel_of_pairwise_cons hrest hbehind))

/-- A label repeats the id of an earlier one exactly if the table knows the id. -/
theorem repeats_iff_of_known {known : Targets} {before after : List Nat}
    (hsplit : starts = before ++ i :: after) (hsorted : starts.Pairwise (· < ·))
    (hknown : ∀ id, (known.lookup id).isSome = true ↔ ∃ j ∈ before, Defines words j id) :
    Repeats words starts i id ↔ Defines words i id ∧ (known.lookup id).isSome = true := by
  have hi : i ∈ starts := by simp [hsplit]
  simp only [hknown, mem_before_iff_lt hsplit hsorted, Repeats, hi, true_and, and_assoc]

/-- Collecting the labels behind those that are known stops at the first one that repeats an id, if
there is one. -/
theorem collect_outcome {known : Targets} {before rest : List Nat}
    (hsplit : starts = before ++ rest) (hsorted : starts.Pairwise (· < ·))
    (hknown : ∀ id, (known.lookup id).isSome = true ↔ ∃ j ∈ before, Defines words j id)
    (hbefore : ∀ j ∈ before, ¬ ∃ id, Repeats words starts j id) :
    (∃ i id, IsLeast {i | ∃ id, Repeats words starts i id} i ∧ Repeats words starts i id ∧
        collect words known rest = .error (.redefined id i)) ∨
      (∀ i id, ¬ Repeats words starts i id) ∧ ∃ table, collect words known rest = .ok table := by
  induction rest generalizing known before with
  | nil =>
      right
      refine ⟨fun i id hrepeats => hbefore i ?_ ⟨id, hrepeats⟩, known, rfl⟩
      rw [List.append_nil] at hsplit
      exact hsplit ▸ hrepeats.1
  | cons position rest ih =>
      have hnext : starts = (before ++ [position]) ++ rest := by rw [hsplit]; simp
      have hrepeats : ∀ id, Repeats words starts position id ↔
          Defines words position id ∧ (known.lookup id).isSome = true :=
        fun id => repeats_iff_of_known hsplit hsorted hknown
      simp only [collect]
      split
      · next hmarker =>
        have hnone : ∀ id, ¬ Defines words position id := fun id hdefines => by
          rw [markerAt?_eq_some_iff_defines.mpr hdefines] at hmarker
          cases hmarker
        refine ih hnext (fun id => ?_) (List.forall_mem_append.mpr ⟨hbefore, ?_⟩)
        · rw [hknown]
          simp [or_and_right, exists_or, hnone]
        · simp [hrepeats, hnone]
      · next here hmarker =>
        have hhere : ∀ id, Defines words position id ↔ here = id := fun id => by
          rw [← markerAt?_eq_some_iff_defines, hmarker, Option.some.injEq]
        split
        · next hsome =>
          left
          have hfault := (hrepeats here).mpr ⟨(hhere here).mpr rfl, hsome⟩
          exact ⟨position, here,
            isLeast_of_split hsplit hsorted ⟨here, hfault⟩ hbefore
              fun j hj => hj.elim fun id h => h.1,
            hfault, rfl⟩
        · next hnew =>
          refine ih hnext (fun id => ?_) (List.forall_mem_append.mpr ⟨hbefore, ?_⟩)
          · rw [List.lookup_cons]
            by_cases hid : here = id
            · subst hid
              simp [or_and_right, exists_or, hhere]
            · rw [show (id == here) = false from beq_false_of_ne (Ne.symm hid), hknown]
              simp [or_and_right, exists_or, hhere, hid]
          · simpa [hrepeats, hhere] using hnew

/-- Patching stops at the first reference whose id is not in the table, if there is one. -/
theorem patch_outcome {known : Targets} {before rest : List Nat} (out : Array Word)
    (hsplit : starts = before ++ rest) (hsorted : starts.Pairwise (· < ·))
    (hknown : ∀ id, known.lookup id = none ↔ ∀ j ∈ starts, ¬ Defines words j id)
    (hbefore : ∀ j ∈ before, ¬ ∃ id, Dangles words starts j id) :
    (∃ i id, IsLeast {i | ∃ id, Dangles words starts i id} i ∧ Dangles words starts i id ∧
        patch words known out rest = .error (.undefined id i)) ∨
      (∀ i id, ¬ Dangles words starts i id) ∧ ∃ out', patch words known out rest = .ok out' := by
  induction rest generalizing before out with
  | nil =>
      right
      refine ⟨fun i id hdangles => hbefore i ?_ ⟨id, hdangles⟩, out, rfl⟩
      rw [List.append_nil] at hsplit
      exact hsplit ▸ hdangles.1
  | cons position rest ih =>
      have hnext : starts = (before ++ [position]) ++ rest := by rw [hsplit]; simp
      have hposition : position ∈ starts := by simp [hsplit]
      have hdangles : ∀ id, Dangles words starts position id ↔
          referenceAt? words position = some id ∧ known.lookup id = none := fun id => by
        rw [referenceAt?_eq_some_iff_refers, hknown, Dangles, and_iff_right hposition]
      simp only [patch]
      split
      · next hreference =>
        refine ih _ hnext (List.forall_mem_append.mpr ⟨hbefore, ?_⟩)
        simp [hdangles, hreference]
      · next id hreference =>
        split
        · next hmissing =>
          left
          have hfault := (hdangles id).mpr ⟨hreference, hmissing⟩
          exact ⟨position, id,
            isLeast_of_split hsplit hsorted ⟨id, hfault⟩ hbefore
              fun j hj => hj.elim fun id h => h.1,
            hfault, rfl⟩
        · next target htarget =>
          refine ih _ hnext (List.forall_mem_append.mpr ⟨hbefore, ?_⟩)
          rw [List.forall_mem_singleton]
          rintro ⟨id', hfault⟩
          obtain ⟨hsame, hmissing⟩ := (hdangles id').mp hfault
          rw [hreference, Option.some.injEq] at hsame
          rw [← hsame, htarget] at hmissing
          cases hmissing

/-- What becomes of words that can be read, without regard to what the program looks like. -/
theorem resolve_cases (hwalk : walk words = .ok starts) :
    (∃ i id, IsLeast {i | ∃ id, Repeats words starts i id} i ∧ Repeats words starts i id ∧
        resolve words = .error (.redefined id i)) ∨
      (∀ i id, ¬ Repeats words starts i id) ∧
        ((∃ i id, IsLeast {i | ∃ id, Dangles words starts i id} i ∧ Dangles words starts i id ∧
            resolve words = .error (.undefined id i)) ∨
          (∀ i id, ¬ Dangles words starts i id) ∧
            ∃ known out, collect words [] starts = .ok known ∧
              patch words known words starts = .ok out ∧ resolve words = .ok ⟨out⟩) := by
  have hsorted : starts.Pairwise (· < ·) := by
    obtain ⟨code, hreads, rfl⟩ := walk_eq_ok_iff.mp hwalk
    exact pairwise_position hreads
  have hnothing : ∀ id, (([] : Targets).lookup id).isSome = true ↔
      ∃ j ∈ [], Defines words j id := by simp
  rcases collect_outcome (List.nil_append _).symm hsorted hnothing (by simp) with
    ⟨i, id, hleast, hrepeats, hcollect⟩ | ⟨hfresh, known, hcollect⟩
  · exact Or.inl ⟨i, id, hleast, hrepeats, by simp only [resolve, hwalk, hcollect]⟩
  have hknown : ∀ id, known.lookup id = none ↔ ∀ j ∈ starts, ¬ Defines words j id := fun id => by
    rw [lookup_of_collect hcollect, List.lookup_nil, Option.none_or, List.find?_eq_none]
    simp [markerAt?_eq_some_iff_defines]
  refine Or.inr ⟨hfresh, ?_⟩
  rcases patch_outcome words (List.nil_append _).symm hsorted hknown (by simp) with
    ⟨i, id, hleast, hdangles, hpatch⟩ | ⟨hbound, out, hpatch⟩
  · refine Or.inl ⟨i, id, hleast, hdangles, ?_⟩
    simp only [resolve, hwalk, hcollect, hpatch]
    rfl
  · refine Or.inr ⟨hbound, known, out, hcollect, hpatch, ?_⟩
    simp only [resolve, hwalk, hcollect, hpatch]
    rfl

/-- Words that can be read are not malformed. -/
theorem resolve_ne_malformed (hwalk : walk words = .ok starts) (cause : ProgramError) :
    resolve words ≠ .error (.malformed cause) := by
  intro hmalformed
  rcases resolve_cases hwalk with
    ⟨i, id, -, -, h⟩ | ⟨-, ⟨i, id, -, -, h⟩ | ⟨-, known, out, -, -, h⟩⟩ <;>
  · rw [h] at hmalformed
    cases hmalformed

/-- At one position one id is defined. -/
theorem Defines.unique {id' : Word} (h : Defines words i id) (h' : Defines words i id') :
    id = id' :=
  Option.some.inj (h.2.symm.trans h'.2)

/-- The id stands behind the jump or the call. -/
theorem operand_of_refers (h : Jumps words i id ∨ Calls words i id) : words[i + 1]? = some id := by
  rcases h with ⟨-, -, hoperand⟩ | ⟨-, hoperand⟩ <;> exact hoperand

/-- At one position one id is referred to. -/
theorem refers_unique {id' : Word} (h : Jumps words i id ∨ Calls words i id)
    (h' : Jumps words i id' ∨ Calls words i id') : id = id' := by
  rw [← referenceAt?_eq_some_iff_refers] at h h'
  exact Option.some.inj (h.symm.trans h')

theorem resolve_of_repeats (hwalk : walk words = .ok starts)
    (hleast : IsLeast {i | ∃ id, Repeats words starts i id} i)
    (hrepeats : Repeats words starts i id) : resolve words = .error (.redefined id i) := by
  rcases resolve_cases hwalk with ⟨i', id', hleast', hrepeats', hresolve⟩ | ⟨hfresh, -⟩
  · obtain rfl := hleast.unique hleast'
    obtain rfl := hrepeats.2.1.unique hrepeats'.2.1
    exact hresolve
  · exact absurd hrepeats (hfresh i id)

/-- What is reported as a redefinition repeats an id. -/
theorem repeats_of_redefined (hwalk : walk words = .ok starts)
    (hresolve : resolve words = .error (.redefined id i)) : Repeats words starts i id := by
  rcases resolve_cases hwalk with
    ⟨i', id', -, hrepeats, h⟩ | ⟨-, ⟨i', id', -, -, h⟩ | ⟨-, known, out, -, -, h⟩⟩
  · cases hresolve.symm.trans h
    exact hrepeats
  · cases hresolve.symm.trans h
  · cases hresolve.symm.trans h

theorem resolve_of_dangles (hwalk : walk words = .ok starts)
    (hfresh : ∀ i id, ¬ Repeats words starts i id)
    (hleast : IsLeast {i | ∃ id, Dangles words starts i id} i)
    (hdangles : Dangles words starts i id) : resolve words = .error (.undefined id i) := by
  rcases resolve_cases hwalk with
    ⟨i', id', -, hrepeats, -⟩ | ⟨-, ⟨i', id', hleast', hdangles', hresolve⟩ | ⟨hbound, -⟩⟩
  · exact absurd hrepeats (hfresh i' id')
  · obtain rfl := hleast.unique hleast'
    obtain rfl := refers_unique hdangles.2.1 hdangles'.2.1
    exact hresolve
  · exact absurd hdangles (hbound i id)

theorem exists_resolve_of_clear (hwalk : walk words = .ok starts)
    (hfresh : ∀ i id, ¬ Repeats words starts i id)
    (hbound : ∀ i id, ¬ Dangles words starts i id) : ∃ p, resolve words = .ok p := by
  rcases resolve_cases hwalk with
    ⟨i, id, -, hrepeats, -⟩ | ⟨-, ⟨i, id, -, hdangles, -⟩ | ⟨-, known, out, -, -, hresolve⟩⟩
  · exact absurd hrepeats (hfresh i id)
  · exact absurd hdangles (hbound i id)
  · exact ⟨_, hresolve⟩

/-! ## The program -/

/-- Where no id is repeated, the first label with an id is the only one. -/
theorem definedAt_of_find? {t : Nat} (hfresh : ∀ i id, ¬ Repeats words starts i id)
    (hfind : (starts.find? fun i => markerAt? words i == some id) = some t) :
    DefinedAt words starts id t := by
  have hmem := List.mem_of_find?_eq_some hfind
  have hdefines : Defines words t id := by
    have hmarker := List.find?_some hfind
    exact markerAt?_eq_some_iff_defines.mp (by simpa using hmarker)
  refine ⟨hmem, hdefines, fun u hu hother => ?_⟩
  rcases Nat.lt_trichotomy u t with hlt | heq | hgt
  · exact absurd ⟨hmem, hdefines, u, hu, hlt, hother⟩ (hfresh t id)
  · exact heq
  · exact absurd ⟨hu, hother, t, hmem, hgt, hdefines⟩ (hfresh u id)

section Program

variable {known : Targets} {out : Array Word}

/-- The word that patching puts after a reference, and the label that it is made from. -/
theorem exists_definedAt_of_patch (hcollect : collect words [] starts = .ok known)
    (hfresh : ∀ i id, ¬ Repeats words starts i id)
    (hpatch : patch words known words starts = .ok out) (hi : i ∈ starts)
    (hrefers : Jumps words i id ∨ Calls words i id) :
    ∃ t, DefinedAt words starts id t ∧ t < words.size ∧
      out[i + 1]? = some (offset words i t) := by
  have hlt : i + 1 < words.size := (Array.getElem?_eq_some_iff.mp (operand_of_refers hrefers)).1
  obtain ⟨t, htable, hout⟩ :=
    getElem?_of_patch_of_reference hpatch hi (referenceAt?_eq_some_iff_refers.mpr hrefers) hlt
  rw [lookup_of_collect hcollect, List.lookup_nil, Option.none_or] at htable
  have hdefined := definedAt_of_find? hfresh htable
  exact ⟨t, hdefined, (Array.getElem?_eq_some_iff.mp hdefined.2.1.1).1, hout⟩

/-- Without faults, resolving patches the words. -/
theorem patched_of_patch (hsize : words.size ≤ 0x7fffffff) (hwalk : walk words = .ok starts)
    (hcollect : collect words [] starts = .ok known)
    (hfresh : ∀ i id, ¬ Repeats words starts i id)
    (hpatch : patch words known words starts = .ok out) (hresolve : resolve words = .ok ⟨out⟩) :
    Patched words starts ⟨out⟩ := by
  have hwalkOut : walk out = .ok starts := by
    obtain ⟨code, hreads, hlinked, -, -⟩ := reads_of_resolve hresolve
    have hstarts := hwalk.symm.trans (walkFrom_of_reads hreads)
    refine (walkFrom_of_reads hlinked).trans (hstarts.trans ?_).symm
    simp [Function.comp_def]
  refine ⟨size_of_patch hpatch, ?_, ?_, ?_, hwalkOut, ?_⟩
  · intro i hi id hjumps
    obtain ⟨t, hdefined, ht, hout⟩ :=
      exists_definedAt_of_patch hcollect hfresh hpatch hi (Or.inl hjumps)
    obtain ⟨condition, hopcode, hoperand⟩ := hjumps
    have hlt := (Array.getElem?_eq_some_iff.mp hopcode).1
    refine ⟨t, _, hdefined, hout, ?_⟩
    have hcall : words[i]? ≠ some Op.call.opcode := fun h => by
      rw [hopcode, Option.some.injEq] at h
      cases Op.opcode_injective h
    rw [offset, if_neg hcall, Word.toInt_ofCount_sub (by omega) (by omega)]
  · intro i hi id hcalls
    obtain ⟨t, hdefined, ht, hout⟩ :=
      exists_definedAt_of_patch hcollect hfresh hpatch hi (Or.inr hcalls)
    refine ⟨t, _, hdefined, hout, ?_⟩
    rw [offset, if_pos hcalls.1, Word.toInt_ofCount_sub_one (by omega)]
  · intro j hj
    refine getElem?_of_patch_of_no_reference hpatch fun i hi id hreference heq => ?_
    exact hj i hi id (referenceAt?_eq_some_iff_refers.mp hreference) heq.symm
  · simp only [Program.check, hwalkOut]
    rfl

end Program

/-- The outcome of resolving labels.  Words that cannot be read are malformed; else the first label
that repeats an id is reported; else the first reference without a label is; else the words become a
program. -/
theorem resolve_outcome (hsize : words.size ≤ 0x7fffffff) :
    (∀ e, walk words = .error e → resolve words = .error (.malformed e)) ∧
    ∀ starts, walk words = .ok starts →
      ((∃ i id, Repeats words starts i id) →
        ∃ i id, IsLeast {i | ∃ id, Repeats words starts i id} i ∧ Repeats words starts i id ∧
          resolve words = .error (.redefined id i)) ∧
      ((∀ i id, ¬ Repeats words starts i id) → (∃ i id, Dangles words starts i id) →
        ∃ i id, IsLeast {i | ∃ id, Dangles words starts i id} i ∧ Dangles words starts i id ∧
          resolve words = .error (.undefined id i)) ∧
      ((∀ i id, ¬ Repeats words starts i id) → (∀ i id, ¬ Dangles words starts i id) →
        ∃ p, resolve words = .ok p ∧ Patched words starts p) := by
  constructor
  · intro e hwalk
    simp only [resolve, hwalk]
  intro starts hwalk
  rcases resolve_cases hwalk with
    ⟨i, id, hleast, hrepeats, hresolve⟩ |
    ⟨hfresh, ⟨i, id, hleast, hdangles, hresolve⟩ |
      ⟨hbound, known, out, hcollect, hpatch, hresolve⟩⟩
  · exact ⟨fun _ => ⟨i, id, hleast, hrepeats, hresolve⟩, fun hnone => absurd hrepeats (hnone i id),
      fun hnone => absurd hrepeats (hnone i id)⟩
  · exact ⟨fun ⟨i, id, hrepeats⟩ => absurd hrepeats (hfresh i id),
      fun _ _ => ⟨i, id, hleast, hdangles, hresolve⟩,
      fun _ hnone => absurd hdangles (hnone i id)⟩
  · exact ⟨fun ⟨i, id, hrepeats⟩ => absurd hrepeats (hfresh i id),
      fun _ ⟨i, id, hdangles⟩ => absurd hdangles (hbound i id),
      fun _ _ => ⟨⟨out⟩, hresolve,
        patched_of_patch hsize hwalk hcollect hfresh hpatch hresolve⟩⟩

/-- The value that is moved here looks like a label, and the second word of the jump like a call. -/
theorem resolve_outcome_of_jump :
    (#[1, 0, 18, 19, 30, 18, 30] : Array Word).size ≤ 0x7fffffff ∧
      ∃ p w, resolve #[1, 0, 18, 19, 30, 18, 30] = .ok p ∧ p.words[4]? = some w ∧ w.toInt = 2 ∧
        p.words[2]? = some 18 ∧ walk p.words = .ok [0, 3, 5] := by
  have hwalk : walk #[1, 0, 18, 19, 30, 18, 30] = .ok [0, 3, 5] := by with_unfolding_all rfl
  have honly : ∀ i ∈ [0, 3, 5], (#[1, 0, 18, 19, 30, 18, 30] : Array Word)[i]? =
      some Op.label.opcode → i = 5 := by decide
  have hrefers : ∀ i ∈ [0, 3, 5], referenceAt? #[1, 0, 18, 19, 30, 18, 30] i = none ∨
      referenceAt? #[1, 0, 18, 19, 30, 18, 30] i = some 30 := by decide
  have hfresh : ∀ i id, ¬ Repeats #[1, 0, 18, 19, 30, 18, 30] [0, 3, 5] i id := by
    rintro i id ⟨hi, hlater, j, hj, hlt, hearlier⟩
    have := honly i hi hlater.1
    have := honly j hj hearlier.1
    omega
  have hbound : ∀ i id, ¬ Dangles #[1, 0, 18, 19, 30, 18, 30] [0, 3, 5] i id := by
    rintro i id ⟨hi, hreference, hmissing⟩
    have hid := referenceAt?_eq_some_iff_refers.mpr hreference
    rcases hrefers i hi with hnone | hsome
    · rw [hnone] at hid
      cases hid
    · rw [hsome] at hid
      cases hid
      exact hmissing 5 (by decide) ⟨rfl, rfl⟩
  obtain ⟨p, hresolve, hpatched⟩ :=
    ((resolve_outcome (by decide)).2 [0, 3, 5] hwalk).2.2 hfresh hbound
  obtain ⟨t, w, ⟨ht, htarget, -⟩, hword, hvalue⟩ :=
    hpatched.jump 3 (by decide) 30 ⟨.always, rfl, rfl⟩
  have hsecond : ∀ i ∈ [0, 3, 5], 2 ≠ i + 1 := by decide
  rw [honly t ht htarget.1] at hvalue
  exact ⟨by decide, p, w, hresolve, hword, hvalue,
    hpatched.keep 2 fun i hi _ _ => hsecond i hi, hpatched.walk_eq⟩

end WordMachine.Label
