import WordMachine.Label.Id
import WordMachine.Proofs.Outcome

/-!
# Resolving code that is resolved

Resolving leaves the labels and their ids in the code, so what it produces can be given to
`Label.resolve` once more.  The second time, the distances and positions that the first time has
written after jumps and calls are taken for ids.  Usually no label has such an id, and the first
jump or call is reported.  But an id is any word, and a label may have the distance of some jump for
its id.  If that label is another one than the jump leads to, then the jump is `Mistaken`, and the
second resolving sends it there.

`resolve_resolved` tells the outcome of the second resolving in all cases, and
`not_resolve_resolved_unchanged` is a program that it changes.
-/

namespace WordMachine.Label

variable {words : Array Word} {starts : List Nat} {p q : Program} {i t u : Nat} {id w : Word}

/-- A jump or a call that is taken for a reference to another label, its code having been resolved:
the word that resolving has put after it is the id of a label that it does not lead to. -/
def Mistaken (words : Array Word) (starts : List Nat) (p : Program) (i : Nat) : Prop :=
  i ∈ starts ∧ ∃ id t w u, (Jumps words i id ∨ Calls words i id) ∧ DefinedAt words starts id t ∧
    p.words[i + 1]? = some w ∧ DefinedAt words starts w u ∧ u ≠ t

/-! ## What resolving does, for code of any length -/

/-- The instruction starts of unresolved words and the program that they have become.  Unlike
`Patched` this speaks of the words that are written and not of the numbers that they denote. -/
structure Rewritten (words : Array Word) (starts : List Nat) (p : Program) : Prop where
  fresh : ∀ i id, ¬ Repeats words starts i id
  size_eq : p.words.size = words.size
  walk_eq : walk p.words = .ok starts
  opcode : ∀ i ∈ starts, p.words[i]? = words[i]?
  refers : ∀ i ∈ starts, ∀ id, Jumps words i id ∨ Calls words i id →
    ∃ t, DefinedAt words starts id t ∧ p.words[i + 1]? = some (offset words i t)
  keep : ∀ j, (∀ i ∈ starts, ∀ id, Jumps words i id ∨ Calls words i id → j ≠ i + 1) →
    p.words[j]? = words[j]?

theorem rewritten_of_resolve (hresolve : resolve words = .ok p) :
    ∃ starts, walk words = .ok starts ∧ Rewritten words starts p := by
  obtain ⟨code, hreads, hlinked, hsize, -⟩ := reads_of_resolve hresolve
  have hwalk : walk words = .ok (code.map Instruction.position) := walkFrom_of_reads hreads
  rcases resolve_cases hwalk with
    ⟨i, id, -, -, hfault⟩ |
    ⟨hfresh, ⟨i, id, -, -, hfault⟩ | ⟨-, known, out, hcollect, hpatch, hout⟩⟩
  · rw [hfault] at hresolve
    cases hresolve
  · rw [hfault] at hresolve
    cases hresolve
  rw [hout] at hresolve
  cases hresolve
  refine ⟨_, hwalk, hfresh, hsize, ?_, ?_, ?_, ?_⟩
  · refine (walkFrom_of_reads hlinked).trans ?_
    simp [Function.comp_def]
  · intro i hi
    obtain ⟨d, hd, rfl⟩ := List.mem_map.mp hi
    have hlink := hlinked.decode?_of_mem (List.mem_map_of_mem hd)
    rw [position_link] at hlink
    rw [getElem?_of_decode?_opcode hlink, op_link,
      getElem?_of_decode?_opcode (hreads.decode?_of_mem hd)]
  · intro i hi id hrefers
    obtain ⟨t, hdefined, -, hword⟩ := exists_definedAt_of_patch hcollect hfresh hpatch hi hrefers
    exact ⟨t, hdefined, hword⟩
  · intro j hj
    refine getElem?_of_patch_of_no_reference hpatch fun i hi id hreference heq => ?_
    exact hj i hi id (referenceAt?_eq_some_iff_refers.mp hreference) heq.symm

/-- Where a label stands, no jump and no call stands. -/
theorem not_refers_of_label (hlabel : words[i]? = some Op.label.opcode) :
    ¬(Jumps words i id ∨ Calls words i id) := by
  rintro (⟨condition, hopcode, -⟩ | ⟨hopcode, -⟩) <;>
  · rw [hlabel, Option.some.injEq] at hopcode
    cases Op.opcode_injective hopcode

/-- Up to `2 ^ 32` words, different labels are told apart by the words that lead to them. -/
theorem offset_injective (ht : t < 0x100000000) (hu : u < 0x100000000)
    (hoffset : offset words i t = offset words i u) : t = u := by
  have hcount : Word.ofCount t = Word.ofCount u := by
    unfold offset at hoffset
    split at hoffset <;> exact (Int32.sub_left_inj _).mp hoffset
  have hbits : UInt32.ofNat t = UInt32.ofNat u := congrArg Word.bits hcount
  rw [← UInt32.toNat_ofNat_of_lt' ht, hbits, UInt32.toNat_ofNat_of_lt' hu]

namespace Rewritten

/-- Resolving keeps the labels. -/
theorem defines_iff (h : Rewritten words starts p) (hi : i ∈ starts) :
    Defines p.words i id ↔ Defines words i id := by
  unfold Defines
  rw [h.opcode i hi]
  refine and_congr_right fun hlabel => ?_
  rw [h.keep (i + 1)]
  rintro j hj id' hrefers heq
  obtain rfl : i = j := by omega
  exact not_refers_of_label hlabel hrefers

theorem definedAt_iff (h : Rewritten words starts p) :
    DefinedAt p.words starts id t ↔ DefinedAt words starts id t := by
  refine and_congr_right fun ht => and_congr (h.defines_iff ht) ?_
  exact forall₂_congr fun u hu => imp_congr_left (h.defines_iff hu)

theorem not_repeats (h : Rewritten words starts p) : ¬ Repeats p.words starts i id := by
  rintro ⟨hi, hdefines, j, hj, hlt, hearlier⟩
  exact h.fresh i id
    ⟨hi, (h.defines_iff hi).mp hdefines, j, hj, hlt, (h.defines_iff hj).mp hearlier⟩

/-- A jump or a call of the resolved code has been one before, and leads to a label. -/
theorem exists_definedAt (h : Rewritten words starts p) (hi : i ∈ starts)
    (hrefers : Jumps p.words i w ∨ Calls p.words i w) :
    ∃ id t, (Jumps words i id ∨ Calls words i id) ∧ DefinedAt words starts id t ∧
      p.words[i + 1]? = some w ∧ w = offset words i t := by
  have hword : p.words[i + 1]? = some w := operand_of_refers hrefers
  -- the word has replaced an id
  have hlt : i + 1 < words.size := h.size_eq ▸ (Array.getElem?_eq_some_iff.mp hword).1
  have hbefore : Jumps words i words[i + 1] ∨ Calls words i words[i + 1] := by
    have hid : words[i + 1]? = some words[i + 1] := Array.getElem?_eq_getElem hlt
    rcases hrefers with ⟨condition, hopcode, -⟩ | ⟨hopcode, -⟩
    · exact Or.inl ⟨condition, (h.opcode i hi).symm.trans hopcode, hid⟩
    · exact Or.inr ⟨(h.opcode i hi).symm.trans hopcode, hid⟩
  obtain ⟨t, hdefined, hwritten⟩ := h.refers i hi _ hbefore
  rw [hword, Option.some.injEq] at hwritten
  exact ⟨_, t, hbefore, hdefined, hword, hwritten⟩

theorem offset_eq (h : Rewritten words starts p) (hi : i ∈ starts) (t : Nat) :
    offset p.words i t = offset words i t := by
  unfold offset
  rw [h.opcode i hi]

/-- Resolving again changes nothing if no jump and no call is mistaken. -/
theorem eq_of_not_mistaken (h : Rewritten words starts p) (hagain : Rewritten p.words starts q)
    (hclear : ∀ i, ¬ Mistaken words starts p i) : q = p := by
  have hwords : q.words = p.words := by
    refine Array.ext_getElem? fun j => ?_
    -- only the words behind jumps and calls are written a second time
    by_cases hj : ∃ i ∈ starts, ∃ w, (Jumps p.words i w ∨ Calls p.words i w) ∧ j = i + 1
    · obtain ⟨i, hi, w, hrefers, rfl⟩ := hj
      obtain ⟨id, t, hbefore, hdefined, hword, rfl⟩ := h.exists_definedAt hi hrefers
      obtain ⟨u, hfound, hwritten⟩ := hagain.refers i hi _ hrefers
      have hsame : u = t := Classical.byContradiction fun hne =>
        hclear i ⟨hi, id, t, _, u, hbefore, hdefined, hword, h.definedAt_iff.mp hfound, hne⟩
      rw [hwritten, hword, h.offset_eq hi, hsame]
    · exact hagain.keep j fun i hi w hrefers heq => hj ⟨i, hi, w, hrefers, heq⟩
  cases q
  cases p
  exact congrArg Program.mk hwords

/-- A mistaken jump or call gets another word. -/
theorem ne_of_mistaken (h : Rewritten words starts p) (hagain : Rewritten p.words starts q)
    (hsize : words.size ≤ 0x100000000) (hmistaken : Mistaken words starts p i) : q ≠ p := by
  obtain ⟨hi, id, t, w, u, hbefore, hdefined, hword, hother, hne⟩ := hmistaken
  have hrefers : Jumps p.words i w ∨ Calls p.words i w := by
    rcases hbefore with ⟨condition, hopcode, -⟩ | ⟨hopcode, -⟩
    · exact Or.inl ⟨condition, (h.opcode i hi).trans hopcode, hword⟩
    · exact Or.inr ⟨(h.opcode i hi).trans hopcode, hword⟩
  obtain ⟨t', hdefined', hwritten⟩ := h.refers i hi id hbefore
  obtain ⟨u', hother', hwritten'⟩ := hagain.refers i hi w hrefers
  obtain rfl := hdefined.2.2 t' hdefined'.1 hdefined'.2.1
  obtain rfl := hother.2.2 u' hother'.1 ((h.defines_iff hother'.1).mp hother'.2.1)
  rintro rfl
  rw [hwritten, h.offset_eq hi, Option.some.injEq] at hwritten'
  have hlt : ∀ {k id}, DefinedAt words starts id k → k < 0x100000000 := fun hk =>
    Nat.lt_of_lt_of_le (Array.getElem?_eq_some_iff.mp hk.2.1.1).1 hsize
  exact hne (offset_injective (hlt hother) (hlt hdefined) hwritten'.symm)

end Rewritten

/-! ## The outcome of resolving again -/

/-- Resolving resolved code.  If some jump or call has not got the id of a label, then the first of
them is reported.  Else the outcome is a program again, and the same one unless some jump or call is
mistaken. -/
theorem resolve_resolved (hresolve : resolve words = .ok p) :
    ∃ starts, walk words = .ok starts ∧ walk p.words = .ok starts ∧
      ((∃ i id, Dangles p.words starts i id) →
        ∃ i id, IsLeast {i | ∃ id, Dangles p.words starts i id} i ∧ Dangles p.words starts i id ∧
          resolve p.words = .error (.undefined id i)) ∧
      ((∀ i id, ¬ Dangles p.words starts i id) →
        ∃ q, resolve p.words = .ok q ∧ ((∀ i, ¬ Mistaken words starts p i) → q = p) ∧
          (words.size ≤ 0x100000000 → (∃ i, Mistaken words starts p i) → q ≠ p)) := by
  obtain ⟨starts, hwalk, h⟩ := rewritten_of_resolve hresolve
  refine ⟨starts, hwalk, h.walk_eq, ?_⟩
  -- the labels are still there and still different, so only a dangling id can be reported
  rcases resolve_cases h.walk_eq with
    ⟨i, id, -, hrepeats, -⟩ |
    ⟨-, ⟨i, id, hleast, hdangles, hfault⟩ | ⟨hbound, known, out, -, -, hout⟩⟩
  · exact absurd hrepeats h.not_repeats
  · exact ⟨fun _ => ⟨i, id, hleast, hdangles, hfault⟩, fun hnone => absurd hdangles (hnone i id)⟩
  · obtain ⟨starts', hwalk', hagain⟩ := rewritten_of_resolve hout
    obtain rfl : starts = starts' := Except.ok.inj (h.walk_eq.symm.trans hwalk')
    refine ⟨?_, fun _ => ⟨_, hout, h.eq_of_not_mistaken hagain, ?_⟩⟩
    · rintro ⟨i, id, hdangles⟩
      exact absurd hdangles (hbound i id)
    · rintro hsize ⟨i, hmistaken⟩
      exact h.ne_of_mistaken hagain hsize hmistaken

/-- The smallest loop: its jump has got the distance −2, which is no label's id. -/
theorem resolve_resolved_of_loop :
    resolve #[18, 30, 19, 30] = .ok ⟨#[18, 30, 19, -2]⟩ ∧
      ∃ i id, resolve #[18, 30, 19, -2] = .error (.undefined id i) := by
  have hresolve : resolve #[18, 30, 19, 30] = .ok ⟨#[18, 30, 19, -2]⟩ := by
    with_unfolding_all rfl
  have hwalk : walk #[18, 30, 19, 30] = .ok [0, 2] := by with_unfolding_all rfl
  obtain ⟨starts, hstarts, -, hundefined, -⟩ := resolve_resolved hresolve
  obtain rfl : starts = [0, 2] := Except.ok.inj (hstarts.symm.trans hwalk)
  have hdangles : Dangles #[18, 30, 19, -2] [0, 2] 2 (-2) := by
    refine ⟨by decide, Or.inl ⟨.always, by decide, by decide⟩, ?_⟩
    unfold Defines
    decide
  obtain ⟨i, id, -, -, hfault⟩ := hundefined ⟨2, -2, hdangles⟩
  exact ⟨hresolve, i, id, hfault⟩

/-- The label `abszaskn` has the id −2.  A jump back to the label right before it has got this
distance, and resolving again sends it to `abszaskn`. -/
theorem not_resolve_resolved_unchanged :
    ¬ ∀ words p, resolve words = .ok p →
      resolve p.words = .ok p ∨ ∃ id i, resolve p.words = .error (.undefined id i) := by
  intro hunchanged
  have hid : Label.id "abszaskn" = -2 := by decide +kernel
  have honce : resolve #[18, Label.id "abszaskn", 18, 517545930, 19, 517545930] =
      .ok ⟨#[18, -2, 18, 517545930, 19, -2]⟩ := by
    rw [hid]
    with_unfolding_all rfl
  have htwice : resolve #[18, -2, 18, 517545930, 19, -2] =
      .ok ⟨#[18, -2, 18, 517545930, 19, -4]⟩ := by
    with_unfolding_all rfl
  rcases hunchanged _ _ honce with hsame | ⟨id, i, hundefined⟩
  · rw [htwice] at hsame
    exact absurd (congrArg Program.words (Except.ok.inj hsame)) (by decide)
  · rw [htwice] at hundefined
    cases hundefined

end WordMachine.Label
