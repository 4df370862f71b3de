import WordMachine.Proofs.ResolvedAgain

/-!
# Code behind code

Two pieces of code that can be resolved are put one behind the other.  The reading splits at the
seam, and the labels of the whole are those of the first piece, where they were, and those of the
second piece, moved.  So if no id is that of labels in both pieces (`Label.Shares`), each reference
finds the label that it has found before.  A jump states a distance, which does not change; a call
states a position, which in the second piece is moved along (`Label.MovedBy`).  If an id is shared,
its label in the second piece is a repetition.

`Label.resolve_append` says this of all pieces that are together short enough for positions to be
words.
-/

namespace WordMachine

/-! ## Reading across the seam -/

/-- The instruction, standing some words further back. -/
def Instruction.moved (n : Nat) (d : Instruction) : Instruction :=
  { d with position := n + d.position }

variable {a b : Array Word} {i : Nat} {d : Instruction} {code code' : List Instruction}

theorem decode?_append_left (hdecode : decode? a i = some d) (b : Array Word) :
    decode? (a ++ b) i = some d := by
  obtain ⟨hposition, hnormal, hwords⟩ := decode?_eq_some_iff.mp hdecode
  have hend := next_le_size_of_decode? hdecode
  refine decode?_eq_some_iff.mpr ⟨hposition, hnormal, fun k hk => ?_⟩
  rw [Array.getElem?_append_left (by simp only [Instruction.next] at hend; omega), hwords k hk]

theorem decode?_append_right (hdecode : decode? b i = some d) (a : Array Word) :
    decode? (a ++ b) (a.size + i) = some (d.moved a.size) := by
  obtain ⟨rfl, hnormal, hwords⟩ := decode?_eq_some_iff.mp hdecode
  refine decode?_eq_some_iff.mpr ⟨rfl, hnormal, fun k hk => ?_⟩
  rw [Nat.add_assoc, Array.getElem?_append_right (Nat.le_add_right ..), Nat.add_sub_cancel_left]
  exact hwords k hk

theorem next_moved (n : Nat) (d : Instruction) : (d.moved n).next = n + d.next := by
  simp only [Instruction.next, Instruction.width, Instruction.moved, Nat.add_assoc]

theorem Reads.moved (hreads : Reads b i code) (a : Array Word) :
    Reads (a ++ b) (a.size + i) (code.map (Instruction.moved a.size)) := by
  induction hreads with
  | done => exact Array.size_append ▸ .done
  | step hdecode hrest ih =>
      refine .step (decode?_append_right hdecode a) ?_
      rw [next_moved]
      exact ih

theorem Reads.append (hreads : Reads a i code) (hreads' : Reads b 0 code') :
    Reads (a ++ b) i (code ++ code'.map (Instruction.moved a.size)) := by
  induction hreads with
  | done => exact hreads'.moved a
  | step hdecode hrest ih => exact .step (decode?_append_left hdecode b) ih

/-- The reading splits at the seam. -/
theorem walk_append {starts starts' : List Nat} (hwalk : walk a = .ok starts)
    (hwalk' : walk b = .ok starts') :
    walk (a ++ b) = .ok (starts ++ starts'.map (a.size + ·)) := by
  obtain ⟨code, hreads, rfl⟩ := walk_eq_ok_iff.mp hwalk
  obtain ⟨code', hreads', rfl⟩ := walk_eq_ok_iff.mp hwalk'
  refine walk_eq_ok_iff.mpr ⟨_, hreads.append hreads', ?_⟩
  rw [List.map_append, List.map_map, List.map_map]
  rfl

namespace Label

variable {starts starts' : List Nat} {p q : Program} {j t : Nat} {op : Op} {id : Word}

/-! ## What stands on either side -/

theorem getElem?_append_size_add (a b : Array Word) (i : Nat) : (a ++ b)[a.size + i]? = b[i]? := by
  rw [Array.getElem?_append_right (Nat.le_add_right ..), Nat.add_sub_cancel_left]

theorem lt_size_of_walk (hwalk : walk a = .ok starts) (hi : i ∈ starts) : i < a.size := by
  rw [← startsFrom_of_walk hwalk] at hi
  exact Program.lt_size_of_mem_startsFrom hi

/-- Code that can be read has its operands. -/
theorem exists_operand_of_walk (hwalk : walk a = .ok starts) (hi : i ∈ starts)
    (hopcode : a[i]? = some op.opcode) (hlabel : op.takesLabel = true) :
    ∃ id, a[i + 1]? = some id := by
  obtain ⟨code, hreads, rfl⟩ := walk_eq_ok_iff.mp hwalk
  obtain ⟨d, hd, rfl⟩ := List.mem_map.mp hi
  have hdecode := hreads.decode?_of_mem hd
  rw [getElem?_of_decode?_opcode hdecode, Option.some.injEq] at hopcode
  obtain rfl := Op.opcode_injective hopcode
  have hcount := operandCount_of_takesLabel hlabel
  exact ⟨d.first, getElem?_of_decode?_first hdecode (by omega)⟩

/-- An instruction of the first piece has its operand in the first piece. -/
theorem operand_append_left_iff (hwalk : walk a = .ok starts) (hi : i ∈ starts)
    (hlabel : op.takesLabel = true) (b : Array Word) :
    (a ++ b)[i]? = some op.opcode ∧ (a ++ b)[i + 1]? = some id ↔
      a[i]? = some op.opcode ∧ a[i + 1]? = some id := by
  rw [Array.getElem?_append_left (lt_size_of_walk hwalk hi)]
  refine and_congr_right fun hopcode => ?_
  obtain ⟨w, hw⟩ := exists_operand_of_walk hwalk hi hopcode hlabel
  rw [Array.getElem?_append_left (Array.getElem?_eq_some_iff.mp hw).1]

theorem defines_append_left_iff (hwalk : walk a = .ok starts) (hi : i ∈ starts) (b : Array Word) :
    Defines (a ++ b) i id ↔ Defines a i id :=
  operand_append_left_iff hwalk hi (by rfl) b

theorem refers_append_left_iff (hwalk : walk a = .ok starts) (hi : i ∈ starts) (b : Array Word) :
    Jumps (a ++ b) i id ∨ Calls (a ++ b) i id ↔ Jumps a i id ∨ Calls a i id :=
  or_congr (exists_congr fun _ => operand_append_left_iff hwalk hi (by rfl) b)
    (operand_append_left_iff hwalk hi (by rfl) b)

theorem defines_append_right_iff (a b : Array Word) (i : Nat) :
    Defines (a ++ b) (a.size + i) id ↔ Defines b i id := by
  simp only [Defines, Nat.add_assoc, getElem?_append_size_add]

theorem refers_append_right_iff (a b : Array Word) (i : Nat) :
    Jumps (a ++ b) (a.size + i) id ∨ Calls (a ++ b) (a.size + i) id ↔
      Jumps b i id ∨ Calls b i id := by
  simp only [Jumps, Calls, Nat.add_assoc, getElem?_append_size_add]

theorem offset_append_left (hwalk : walk a = .ok starts) (hi : i ∈ starts) (b : Array Word)
    (t : Nat) : offset (a ++ b) i t = offset a i t := by
  rw [offset, offset, Array.getElem?_append_left (lt_size_of_walk hwalk hi)]

/-- A distance is not changed by moving both ends. -/
theorem offset_append_right_of_not_call (hopcode : b[i]? ≠ some Op.call.opcode) (a : Array Word)
    (t : Nat) : offset (a ++ b) (a.size + i) (a.size + t) = offset b i t := by
  rw [offset, offset, getElem?_append_size_add, if_neg hopcode, if_neg hopcode,
    Word.ofCount_add, Word.ofCount_add]
  grind

/-- A position is changed by as much as its label is moved. -/
theorem toInt_offset_append_right_of_call (hopcode : b[i]? = some Op.call.opcode)
    (hsize : a.size + t < 0x80000000) :
    (offset (a ++ b) (a.size + i) (a.size + t)).toInt = (offset b i t).toInt + a.size := by
  rw [offset, offset, getElem?_append_size_add, if_pos hopcode, if_pos hopcode,
    Word.toInt_ofCount_sub_one hsize, Word.toInt_ofCount_sub_one (by omega)]
  omega

/-! ## The two pieces as one -/

/-- The label at a position of the second piece has the id of a label of the first. -/
def Shares (a b : Array Word) (starts starts' : List Nat) (j : Nat) (id : Word) : Prop :=
  j ∈ starts' ∧ Defines b j id ∧ ∃ i ∈ starts, Defines a i id

/-- Resolved words that have been moved back by some words: what a call states is greater by as
many, and all else is the same. -/
structure MovedBy (n : Nat) (starts : List Nat) (words out : Array Word) : Prop where
  size_eq : out.size = words.size
  call : ∀ i ∈ starts, words[i]? = some Op.call.opcode → ∃ w w', words[i + 1]? = some w ∧
    out[i + 1]? = some w' ∧ w'.toInt = w.toInt + n
  keep : ∀ j, (∀ i ∈ starts, words[i]? = some Op.call.opcode → j ≠ i + 1) → out[j]? = words[j]?

section Whole

variable {r : Program} (hwalk : walk a = .ok starts) (hwalk' : walk b = .ok starts')
  (hfirst : Rewritten a starts p) (hsecond : Rewritten b starts' q)

theorem mem_starts_append : i ∈ starts ++ starts'.map (a.size + ·) ↔
    i ∈ starts ∨ ∃ j ∈ starts', a.size + j = i := by
  rw [List.mem_append, List.mem_map]

include hwalk hfirst hsecond in
/-- The repetitions of the whole are the labels of the second piece whose ids stand in the first. -/
theorem repeats_append_iff :
    Repeats (a ++ b) (starts ++ starts'.map (a.size + ·)) i id ↔
      ∃ j, Shares a b starts starts' j id ∧ a.size + j = i := by
  constructor
  · rintro ⟨hi, hlater, k, hk, hlt, hearlier⟩
    rcases mem_starts_append.mp hi with hleft | ⟨j, hj, rfl⟩
    · rcases mem_starts_append.mp hk with hkleft | ⟨k, -, rfl⟩
      · rw [defines_append_left_iff hwalk hleft] at hlater
        rw [defines_append_left_iff hwalk hkleft] at hearlier
        exact absurd ⟨hleft, hlater, k, hkleft, hlt, hearlier⟩ (hfirst.fresh i id)
      · have := lt_size_of_walk hwalk hleft
        omega
    · rw [defines_append_right_iff] at hlater
      rcases mem_starts_append.mp hk with hkleft | ⟨k, hkright, rfl⟩
      · rw [defines_append_left_iff hwalk hkleft] at hearlier
        exact ⟨j, ⟨hj, hlater, k, hkleft, hearlier⟩, rfl⟩
      · rw [defines_append_right_iff] at hearlier
        exact absurd ⟨hj, hlater, k, hkright, by omega, hearlier⟩ (hsecond.fresh j id)
  · rintro ⟨j, ⟨hj, hlater, k, hk, hearlier⟩, rfl⟩
    refine ⟨mem_starts_append.mpr (Or.inr ⟨j, hj, rfl⟩),
      (defines_append_right_iff a b j).mpr hlater, k, mem_starts_append.mpr (Or.inl hk), ?_,
      (defines_append_left_iff hwalk hk b).mpr hearlier⟩
    have := lt_size_of_walk hwalk hk
    omega

include hwalk in
/-- A reference of the whole is one of the first or of the second piece. -/
theorem refers_append_cases (hi : i ∈ starts ++ starts'.map (a.size + ·))
    (hrefers : Jumps (a ++ b) i id ∨ Calls (a ++ b) i id) :
    (i ∈ starts ∧ (Jumps a i id ∨ Calls a i id)) ∨
      ∃ j ∈ starts', a.size + j = i ∧ (Jumps b j id ∨ Calls b j id) := by
  rcases mem_starts_append.mp hi with hleft | ⟨j, hj, rfl⟩
  · exact Or.inl ⟨hleft, (refers_append_left_iff hwalk hleft b).mp hrefers⟩
  · exact Or.inr ⟨j, hj, rfl, (refers_append_right_iff a b j).mp hrefers⟩

include hwalk hfirst hsecond in
/-- Each reference of the whole has a label, as it has had one in its own piece. -/
theorem not_dangles_append :
    ¬ Dangles (a ++ b) (starts ++ starts'.map (a.size + ·)) i id := by
  rintro ⟨hi, hrefers, hmissing⟩
  rcases refers_append_cases hwalk hi hrefers with ⟨hleft, hown⟩ | ⟨j, hj, rfl, hown⟩
  · obtain ⟨t, ⟨ht, hdefines, -⟩, -⟩ := hfirst.refers i hleft id hown
    exact hmissing t (mem_starts_append.mpr (Or.inl ht))
      ((defines_append_left_iff hwalk ht b).mpr hdefines)
  · obtain ⟨t, ⟨ht, hdefines, -⟩, -⟩ := hsecond.refers j hj id hown
    exact hmissing (a.size + t) (mem_starts_append.mpr (Or.inr ⟨t, ht, rfl⟩))
      ((defines_append_right_iff a b t).mpr hdefines)

section Disjoint

variable (hwhole : Rewritten (a ++ b) (starts ++ starts'.map (a.size + ·)) r)

include hwalk hfirst hwhole in
/-- The first piece becomes what it has become alone. -/
theorem getElem?_append_left_of_rewritten (hj : j < a.size) : r.words[j]? = p.words[j]? := by
  by_cases hreference : ∃ i ∈ starts, ∃ id, (Jumps a i id ∨ Calls a i id) ∧ j = i + 1
  · obtain ⟨i, hi, id, hrefers, rfl⟩ := hreference
    obtain ⟨t, ⟨ht, hdefines, -⟩, hword⟩ := hfirst.refers i hi id hrefers
    obtain ⟨u, ⟨-, -, honly⟩, hwritten⟩ := hwhole.refers i (mem_starts_append.mpr (Or.inl hi)) id
      ((refers_append_left_iff hwalk hi b).mpr hrefers)
    have hsame : t = u := honly t (mem_starts_append.mpr (Or.inl ht))
      ((defines_append_left_iff hwalk ht b).mpr hdefines)
    rw [hwritten, hword, ← hsame, offset_append_left hwalk hi]
  · rw [hfirst.keep j fun i hi id hrefers heq => hreference ⟨i, hi, id, hrefers, heq⟩,
      hwhole.keep j, Array.getElem?_append_left hj]
    intro i hi id hrefers heq
    rcases refers_append_cases hwalk hi hrefers with ⟨hleft, hown⟩ | ⟨k, -, rfl, -⟩
    · exact hreference ⟨i, hleft, id, hown, heq⟩
    · omega

include hwalk hfirst hwhole in
/-- The whole is the first piece and what stands behind it. -/
theorem append_extract_of_rewritten :
    p.words ++ r.words.extract a.size r.words.size = r.words := by
  have hle : a.size ≤ r.words.size := by
    rw [hwhole.size_eq, Array.size_append]
    exact Nat.le_add_right ..
  have hleft : r.words.extract 0 a.size = p.words := by
    refine Array.ext_getElem? fun j => ?_
    rw [Array.getElem?_extract]
    split
    · rw [Nat.zero_add, getElem?_append_left_of_rewritten hwalk hfirst hwhole (by omega)]
    · rw [Array.getElem?_eq_none (by rw [hfirst.size_eq]; omega)]
  calc p.words ++ r.words.extract a.size r.words.size
      = r.words.extract 0 a.size ++ r.words.extract a.size r.words.size := by rw [hleft]
    _ = r.words.extract (min 0 a.size) (max a.size r.words.size) := Array.extract_append_extract
    _ = r.words := by rw [Nat.zero_min, Nat.max_eq_right hle, Array.extract_size]

include hsecond hwhole in
/-- After a reference of the second piece stands what leads to its label, both having been moved. -/
theorem exists_offset_of_refers_right (hi : i ∈ starts') (hrefers : Jumps b i id ∨ Calls b i id) :
    ∃ t, DefinedAt b starts' id t ∧ q.words[i + 1]? = some (offset b i t) ∧
      r.words[a.size + (i + 1)]? = some (offset (a ++ b) (a.size + i) (a.size + t)) := by
  obtain ⟨t, hdefined, hword⟩ := hsecond.refers i hi id hrefers
  obtain ⟨u, ⟨-, -, honly⟩, hwritten⟩ := hwhole.refers (a.size + i)
    (mem_starts_append.mpr (Or.inr ⟨i, hi, rfl⟩)) id ((refers_append_right_iff a b i).mpr hrefers)
  have hsame : a.size + t = u := honly _ (mem_starts_append.mpr (Or.inr ⟨t, hdefined.1, rfl⟩))
    ((defines_append_right_iff a b t).mpr hdefined.2.1)
  exact ⟨t, hdefined, hword, hsame ▸ hwritten⟩

include hwalk hwalk' hsecond hwhole in
/-- The second piece becomes what it has become alone, moved. -/
theorem movedBy_of_rewritten (hsize : a.size + b.size < 0x80000000) :
    MovedBy a.size starts' q.words (r.words.extract a.size r.words.size) := by
  have hsame : r.words.size = a.size + b.size := hwhole.size_eq.trans Array.size_append
  have hout : ∀ k, (r.words.extract a.size r.words.size)[k]? = r.words[a.size + k]? := fun k => by
    rw [Array.getElem?_extract]
    split
    · rfl
    · rw [Array.getElem?_eq_none (by omega)]
  refine ⟨?_, fun i hi hcall => ?_, fun j hj => ?_⟩
  · rw [Array.size_extract, hsecond.size_eq]
    omega
  · rw [hsecond.opcode i hi] at hcall
    obtain ⟨id, hid⟩ := exists_operand_of_walk hwalk' hi hcall (by rfl)
    obtain ⟨t, hdefined, hword, hwritten⟩ :=
      exists_offset_of_refers_right hsecond hwhole hi (Or.inr ⟨hcall, hid⟩)
    have ht := lt_size_of_walk hwalk' hdefined.1
    exact ⟨_, _, hword, (hout _).trans hwritten,
      toInt_offset_append_right_of_call hcall (by omega)⟩
  · rw [hout]
    by_cases hreference : ∃ i ∈ starts', ∃ id, (Jumps b i id ∨ Calls b i id) ∧ j = i + 1
    · obtain ⟨i, hi, id, hrefers, rfl⟩ := hreference
      have hcall : b[i]? ≠ some Op.call.opcode := fun hcall =>
        hj i hi ((hsecond.opcode i hi).trans hcall) rfl
      obtain ⟨t, -, hword, hwritten⟩ := exists_offset_of_refers_right hsecond hwhole hi hrefers
      rw [hwritten, hword, offset_append_right_of_not_call hcall]
    · rw [hsecond.keep j fun i hi id hrefers heq => hreference ⟨i, hi, id, hrefers, heq⟩,
        hwhole.keep (a.size + j), getElem?_append_size_add]
      intro i hi id hrefers heq
      rcases refers_append_cases hwalk hi hrefers with ⟨hleft, hown⟩ | ⟨k, hk, rfl, hown⟩
      · -- an operand of the first piece stands in the first piece
        have := (Array.getElem?_eq_some_iff.mp (operand_of_refers hown)).1
        omega
      · exact hreference ⟨k, hk, id, hown, by omega⟩

end Disjoint

end Whole

/-- Resolving code behind code.  If the pieces have no id in common, then the first piece becomes
what it becomes alone, and the second one becomes that, moved.  Else the first label of the second
piece with an id of the first is reported. -/
theorem resolve_append (hsize : a.size + b.size < 0x80000000) (hfirst : resolve a = .ok p)
    (hsecond : resolve b = .ok q) :
    ∃ starts starts', walk a = .ok starts ∧ walk b = .ok starts' ∧ walk q.words = .ok starts' ∧
      ((∀ j id, ¬ Shares a b starts starts' j id) →
        ∃ out, MovedBy a.size starts' q.words out ∧ resolve (a ++ b) = .ok ⟨p.words ++ out⟩) ∧
      ((∃ j id, Shares a b starts starts' j id) →
        ∃ j id, IsLeast {j | ∃ id, Shares a b starts starts' j id} j ∧
          Shares a b starts starts' j id ∧
          resolve (a ++ b) = .error (.redefined id (a.size + j))) := by
  obtain ⟨starts, hwalk, hp⟩ := rewritten_of_resolve hfirst
  obtain ⟨starts', hwalk', hq⟩ := rewritten_of_resolve hsecond
  have hwhole := walk_append hwalk hwalk'
  refine ⟨starts, starts', hwalk, hwalk', hq.walk_eq, fun hnone => ?_, ?_⟩
  · have hfresh : ∀ i id, ¬ Repeats (a ++ b) (starts ++ starts'.map (a.size + ·)) i id := by
      intro i id hrepeats
      obtain ⟨j, hshares, -⟩ := (repeats_append_iff hwalk hp hq).mp hrepeats
      exact hnone j id hshares
    obtain ⟨r, hresolve⟩ :=
      exists_resolve_of_clear hwhole hfresh fun i id => not_dangles_append hwalk hp hq
    obtain ⟨whole, hwalkWhole, hr⟩ := rewritten_of_resolve hresolve
    obtain rfl := Except.ok.inj (hwhole.symm.trans hwalkWhole)
    refine ⟨_, movedBy_of_rewritten hwalk hwalk' hq hr hsize, ?_⟩
    rw [hresolve, append_extract_of_rewritten hwalk hp hr]
  · rintro ⟨k, id, hshares⟩
    have hrepeats := (repeats_append_iff hwalk hp hq).mpr ⟨k, hshares, rfl⟩
    rcases resolve_cases hwhole with ⟨i, id, hleast, hrepeats, hfault⟩ | ⟨hfresh, -⟩
    · obtain ⟨j, hshares, rfl⟩ := (repeats_append_iff hwalk hp hq).mp hrepeats
      refine ⟨j, id, ⟨⟨id, hshares⟩, fun k hk => ?_⟩, hshares, hfault⟩
      obtain ⟨id', hother⟩ := hk
      have := hleast.2 ⟨id', (repeats_append_iff hwalk hp hq).mpr ⟨k, hother, rfl⟩⟩
      omega
    · exact absurd hrepeats (hfresh _ _)

/-- A call behind a loop is moved with its label, which stands at position 6 then and not at 2.  A
second copy of the loop repeats its label. -/
theorem resolve_append_of_loop :
    (∃ out w, resolve (#[18, 9, 19, 9] ++ #[30, 7, 18, 7]) = .ok ⟨#[18, 9, 19, -2] ++ out⟩ ∧
        out[1]? = some w ∧ w.toInt = 5) ∧
      resolve (#[18, 9, 19, 9] ++ #[18, 9, 19, 9]) = .error (.redefined 9 4) := by
  have hloop : resolve #[18, 9, 19, 9] = .ok ⟨#[18, 9, 19, -2]⟩ := by with_unfolding_all rfl
  have hcall : resolve #[30, 7, 18, 7] = .ok ⟨#[30, 1, 18, 7]⟩ := by with_unfolding_all rfl
  have hstartsLoop : walk #[18, 9, 19, 9] = .ok [0, 2] := by with_unfolding_all rfl
  have hstartsCall : walk #[30, 7, 18, 7] = .ok [0, 2] := by with_unfolding_all rfl
  constructor
  · obtain ⟨starts, starts', hwalk, hwalk', -, hdisjoint, -⟩ :=
      resolve_append (by decide) hloop hcall
    obtain rfl := Except.ok.inj (hstartsLoop.symm.trans hwalk)
    obtain rfl := Except.ok.inj (hstartsCall.symm.trans hwalk')
    have hnone : ∀ j ∈ [0, 2], ∀ i ∈ [0, 2],
        markerAt? #[30, 7, 18, 7] j = none ∨
          markerAt? #[18, 9, 19, 9] i ≠ markerAt? #[30, 7, 18, 7] j := by
      decide
    obtain ⟨out, hmoved, hresolve⟩ := hdisjoint fun j id ⟨hj, hlater, i, hi, hearlier⟩ => by
      rw [← markerAt?_eq_some_iff_defines] at hlater hearlier
      rcases hnone j hj i hi with h | h
      · rw [h] at hlater
        cases hlater
      · exact h (hearlier.trans hlater.symm)
    obtain ⟨w, w', hw, hw', hvalue⟩ := hmoved.call 0 (by decide) (by decide)
    cases hw
    exact ⟨out, w', hresolve, hw', hvalue⟩
  · obtain ⟨starts, starts', hwalk, hwalk', -, -, hshared⟩ :=
      resolve_append (by decide) hloop hloop
    obtain rfl := Except.ok.inj (hstartsLoop.symm.trans hwalk)
    obtain rfl := Except.ok.inj (hstartsLoop.symm.trans hwalk')
    obtain ⟨j, id, -, ⟨hj, hlabel, -⟩, hfault⟩ :=
      hshared ⟨0, 9, by decide, ⟨rfl, rfl⟩, 0, by decide, rfl, rfl⟩
    have honly : ∀ j ∈ [0, 2],
        (#[18, 9, 19, 9] : Array Word)[j]? = some Op.label.opcode → j = 0 := by
      decide
    obtain rfl := honly j hj hlabel.1
    cases hlabel.2
    exact hfault

end Label

end WordMachine
