import WordMachine.Proofs.Checksums
import WordMachine.Proofs.Encoding
import WordMachine.Proofs.ResolvedAgain

/-!
# Ids of names that differ at the end

Different names may have the same id.  But this takes a difference of more than one group of
characters: if two names agree in a number of whole groups, and the rests after that have different
encodings of the same length of up to four bytes, then their ids differ (`id_ne_of_last_group`).
The checksum is in the same state after the whole groups, and its readings up to there combine to
the same word.  A single further reading is left, and it tells the rests apart.

So a family of names that differ in their last group only can be used for labels without any fear:
none of them is taken for the redefinition of another, and no reference goes astray.
-/

namespace WordMachine.Label

open Text

variable {words : Array Word} {starts : List Nat} {name : Nat → String} {s u v : String} {n : Nat}

/-! ## The last reading -/

/-- The bytes that are fed for some characters. -/
def bytesOf (cs : List Char) : List UInt8 := cs.flatMap String.utf8EncodeChar

theorem bytesOf_injective : Function.Injective bytesOf := by
  intro cs ds hbytes
  have hpieces : cs.map some = ds.map some := by
    rw [← Utf8.pieces_encode, ← Utf8.pieces_encode]
    exact congrArg Utf8.pieces hbytes
  exact List.map_injective_iff.mpr (Option.some_injective Char) hpieces

theorem length_le_length_bytesOf (cs : List Char) : cs.length ≤ (bytesOf cs).length := by
  induction cs with
  | nil => exact Nat.le_refl _
  | cons c cs ih =>
      have hc : 0 < c.utf8Size := c.utf8Size_pos
      rw [bytesOf, List.flatMap_cons, List.length_append, String.length_utf8EncodeChar,
        List.length_cons]
      have ih : cs.length ≤ (cs.flatMap String.utf8EncodeChar).length := ih
      omega

/-- An ASCII character is a single byte. -/
theorem length_bytesOf_of_ascii {cs : List Char} (hcs : ∀ c ∈ cs, c.toNat < 128) :
    (bytesOf cs).length = cs.length := by
  induction cs with
  | nil => rfl
  | cons c cs ih =>
      obtain ⟨hc, hcs⟩ := List.forall_mem_cons.mp hcs
      have hsize : c.utf8Size = 1 :=
        Char.utf8Size_eq_one_iff.mpr (UInt32.le_iff_toNat_le.mpr (Nat.le_of_lt_succ hc))
      rw [bytesOf, List.flatMap_cons, List.length_append, String.length_utf8EncodeChar, hsize,
        List.length_cons, Nat.add_comm 1]
      exact congrArg (· + 1) (ih hcs)

theorem idBits_cons (state acc : UInt32) (c : Char) (cs : List Char) :
    idBits state acc (c :: cs) =
      idBits (Crc32.feedAll state (bytesOf ((c :: cs).take groupSize)))
        (acc ^^^ Crc32.finish (Crc32.feedAll state (bytesOf ((c :: cs).take groupSize))))
        (cs.drop (groupSize - 1)) := by
  rw [idBits]
  rfl

/-- What is left after whole groups is read from the state that they lead to. -/
theorem idBits_append (state acc : UInt32) (cs rest : List Char) (hcs : groupSize ∣ cs.length) :
    idBits state acc (cs ++ rest) =
      idBits (Crc32.feedAll state (bytesOf cs)) (idBits state acc cs) rest := by
  obtain ⟨k, hk⟩ := hcs
  induction k generalizing state acc cs with
  | zero =>
      obtain rfl := List.length_eq_zero_iff.mp hk
      rw [List.nil_append, idBits]
      rfl
  | succ k ih =>
      have hsize : groupSize = 4 := rfl
      rw [hsize] at hk ih
      obtain ⟨c, cs, rfl⟩ := List.exists_cons_of_length_pos (l := cs) (by omega)
      rw [List.length_cons] at hk
      have htake : (c :: (cs ++ rest)).take groupSize = (c :: cs).take groupSize := by
        rw [← List.cons_append, hsize,
          List.take_append_of_le_length (by rw [List.length_cons]; omega)]
      have hdrop : (cs ++ rest).drop (groupSize - 1) = cs.drop (groupSize - 1) ++ rest :=
        List.drop_append_of_le_length (by omega)
      have hlength : (cs.drop (groupSize - 1)).length = 4 * k := by
        rw [List.length_drop]
        omega
      have hbytes : bytesOf ((c :: cs).take groupSize) ++ bytesOf (cs.drop (groupSize - 1)) =
          bytesOf (c :: cs) := by
        rw [bytesOf, bytesOf, ← List.flatMap_append]
        exact congrArg bytesOf (List.take_append_drop groupSize (c :: cs))
      let state' := Crc32.feedAll state (bytesOf ((c :: cs).take groupSize))
      let acc' := acc ^^^ Crc32.finish state'
      calc idBits state acc (c :: cs ++ rest)
          = idBits state' acc' (cs.drop (groupSize - 1) ++ rest) := by
            rw [List.cons_append, idBits_cons, htake, hdrop]
        _ = idBits (Crc32.feedAll state' (bytesOf (cs.drop (groupSize - 1))))
              (idBits state' acc' (cs.drop (groupSize - 1))) rest := ih _ _ _ hlength
        _ = idBits (Crc32.feedAll state (bytesOf (c :: cs))) (idBits state acc (c :: cs)) rest := by
            rw [← Crc32.feedAll_append, hbytes, ← idBits_cons]

/-- At most one group is left to be read. -/
theorem idBits_of_length_le (state acc : UInt32) {cs : List Char} (hne : cs ≠ [])
    (hcs : cs.length ≤ groupSize) :
    idBits state acc cs = acc ^^^ Crc32.finish (Crc32.feedAll state (bytesOf cs)) := by
  obtain ⟨c, cs, rfl⟩ := List.exists_cons_of_ne_nil hne
  have hrest : cs.drop (groupSize - 1) = [] := by
    have hsize : groupSize = 4 := rfl
    rw [List.length_cons] at hcs
    exact List.drop_eq_nil_of_le (by omega)
  rw [idBits_cons, List.take_of_length_le hcs, hrest, idBits]

/-- Names that agree in whole groups and end in different rests, of the same number of bytes and of
no more than four, have different ids. -/
theorem id_ne_of_rest (hs : groupSize ∣ s.length)
    (hlength : (Utf8.encode u).length = (Utf8.encode v).length)
    (hle : (Utf8.encode u).length ≤ 4) (hne : u ≠ v) : id (s ++ u) ≠ id (s ++ v) := by
  have hlength : (bytesOf u.toList).length = (bytesOf v.toList).length := hlength
  have hle : (bytesOf u.toList).length ≤ 4 := hle
  have hu := length_le_length_bytesOf u.toList
  have hv := length_le_length_bytesOf v.toList
  have hsize : groupSize = 4 := rfl
  have hs : groupSize ∣ s.toList.length := hs
  intro hid
  have hbits : idBits Crc32.initial 0 (s.toList ++ u.toList) =
      idBits Crc32.initial 0 (s.toList ++ v.toList) := by
    rw [← String.toList_append, ← String.toList_append]
    exact congrArg Word.bits hid
  -- an empty rest has no bytes, and then the other one would be empty too
  have hnonempty : ∀ {x y : String}, (bytesOf x.toList).length = (bytesOf y.toList).length →
      x ≠ y → x.toList ≠ [] := by
    intro x y hxy hne hx
    have hy := length_le_length_bytesOf y.toList
    rw [← hxy, hx] at hy
    have hempty : y.toList = [] := List.length_eq_zero_iff.mp (Nat.le_zero.mp hy)
    exact hne (String.toList_inj.mp (hx.trans hempty.symm))
  rw [idBits_append _ _ _ _ hs, idBits_append _ _ _ _ hs,
    idBits_of_length_le _ _ (hnonempty hlength hne) (by omega),
    idBits_of_length_le _ _ (hnonempty hlength.symm hne.symm) (by omega),
    UInt32.xor_right_inj] at hbits
  have hbytes := Crc32.feedAll_injective hlength hle (Crc32.finish_injective hbits)
  exact hne (String.toList_inj.mp (bytesOf_injective hbytes))

/-! ## Families of names -/

/-- The names that have a common beginning and end in `n` ASCII characters. -/
def family (s : String) (n : Nat) : Set String :=
  {name | ∃ u, name = s ++ u ∧ u.length = n ∧ ∀ c ∈ u.toList, c.toNat < 128}

/-- The positions of the labels. -/
def labels (words : Array Word) (starts : List Nat) : Set Nat :=
  {i | i ∈ starts ∧ ∃ id, Defines words i id}

/-- The labels among the words have the ids of the names that are given for their positions. -/
def Named (words : Array Word) (starts : List Nat) (name : Nat → String) : Prop :=
  ∀ i ∈ starts, ∀ id', Defines words i id' → id' = id (name i)

theorem injOn_family (hs : groupSize ∣ s.length) (hn : n ≤ groupSize) :
    Set.InjOn id (family s n) := by
  rintro _ ⟨u, rfl, hu, hascii⟩ _ ⟨v, rfl, hv, hascii'⟩ hid
  have hlength : (Utf8.encode u).length = n := (length_bytesOf_of_ascii hascii).trans hu
  have hlength' : (Utf8.encode v).length = n := (length_bytesOf_of_ascii hascii').trans hv
  by_contra hne
  exact id_ne_of_rest hs (hlength.trans hlength'.symm) (hlength.trans_le hn)
    (fun huv => hne (congrArg (s ++ ·) huv)) hid

section Named

variable (hs : groupSize ∣ s.length) (hn : n ≤ groupSize) (hnamed : Named words starts name)

include hs hn hnamed

/-- Where a label has the id of a name of the family, it has this name, or none of the family. -/
theorem eq_or_not_mem_family {i : Nat} {expected : String} (hi : i ∈ starts)
    (hexpected : expected ∈ family s n) (hdefines : Defines words i (id expected)) :
    name i = expected ∨ name i ∉ family s n :=
  or_iff_not_imp_right.mpr fun hmem =>
    injOn_family hs hn (not_not.mp hmem) hexpected (hnamed i hi _ hdefines).symm

/-- A label of the family is reported only if its own name has been used before, or one that is not
of the family. -/
theorem exists_of_redefined {i : Nat} {id' : Word} (hwalk : walk words = .ok starts)
    (hresolve : resolve words = .error (.redefined id' i)) (hmem : name i ∈ family s n) :
    ∃ j ∈ starts, j < i ∧ Defines words j id' ∧ (name j = name i ∨ name j ∉ family s n) := by
  obtain ⟨hi, hdefines, j, hj, hlt, hearlier⟩ := repeats_of_redefined hwalk hresolve
  refine ⟨j, hj, hlt, hearlier, eq_or_not_mem_family hs hn hnamed hj hmem ?_⟩
  rwa [← hnamed i hi _ hdefines]

/-- Labels that have different names, all of the family, are no redefinitions. -/
theorem resolve_ne_redefined (hwalk : walk words = .ok starts)
    (hmem : Set.MapsTo name (labels words starts) (family s n))
    (hdistinct : Set.InjOn name (labels words starts)) (i : Nat) (id' : Word) :
    resolve words ≠ .error (.redefined id' i) := by
  intro hresolve
  obtain ⟨hi, hdefines, -⟩ := repeats_of_redefined hwalk hresolve
  have hlabel : i ∈ labels words starts := ⟨hi, id', hdefines⟩
  obtain ⟨j, hj, hlt, hearlier, hname | hother⟩ :=
    exists_of_redefined hs hn hnamed hwalk hresolve (hmem hlabel)
  · exact absurd (hdistinct ⟨hj, id', hearlier⟩ hlabel hname) (Nat.ne_of_lt hlt)
  · exact hother (hmem ⟨hj, id', hearlier⟩)

/-- A jump or a call to a name of the family leads to a label with this name, or none of the
family. -/
theorem exists_target_of_refers {p : Program} {i : Nat} {callee : String}
    (hwalk : walk words = .ok starts) (hresolve : resolve words = .ok p) (hi : i ∈ starts)
    (hcallee : callee ∈ family s n)
    (hrefers : Jumps words i (id callee) ∨ Calls words i (id callee)) :
    ∃ t, DefinedAt words starts (id callee) t ∧ p.words[i + 1]? = some (offset words i t) ∧
      (name t = callee ∨ name t ∉ family s n) := by
  obtain ⟨starts', hwalk', hrewritten⟩ := rewritten_of_resolve hresolve
  obtain rfl : starts' = starts := Except.ok.inj (hwalk'.symm.trans hwalk)
  obtain ⟨t, hdefined, hword⟩ := hrewritten.refers i hi _ hrefers
  exact ⟨t, hdefined, hword,
    eq_or_not_mem_family hs hn hnamed hdefined.1 hcallee hdefined.2.1⟩

end Named

/-- Names that agree in whole groups of characters and end in different rests of the same number of
bytes, of which there are no more than four, have different ids.  So the ids of a family of names
tell its members apart: no label of the family is the redefinition of another one, and the jumps and
the calls to one do not lead to another. -/
theorem id_ne_of_last_group :
    (∀ s u v : String, groupSize ∣ s.length →
      (Utf8.encode u).length = (Utf8.encode v).length → (Utf8.encode u).length ≤ 4 → u ≠ v →
      id (s ++ u) ≠ id (s ++ v)) ∧
    ∀ (s : String) (n : Nat), groupSize ∣ s.length → n ≤ groupSize →
      Set.InjOn id (family s n) ∧
      ∀ (words : Array Word) (starts : List Nat) (name : Nat → String), walk words = .ok starts →
        Named words starts name →
        (∀ i id', resolve words = .error (.redefined id' i) → name i ∈ family s n →
          ∃ j ∈ starts, j < i ∧ Defines words j id' ∧
            (name j = name i ∨ name j ∉ family s n)) ∧
        (Set.MapsTo name (labels words starts) (family s n) →
          Set.InjOn name (labels words starts) →
          ∀ i id', resolve words ≠ .error (.redefined id' i)) ∧
        ∀ p, resolve words = .ok p → ∀ i ∈ starts, ∀ callee ∈ family s n,
          Jumps words i (id callee) ∨ Calls words i (id callee) →
          ∃ t, DefinedAt words starts (id callee) t ∧
            p.words[i + 1]? = some (offset words i t) ∧
            (name t = callee ∨ name t ∉ family s n) := by
  refine ⟨fun s u v hs hlength hle hne => id_ne_of_rest hs hlength hle hne, ?_⟩
  intro s n hs hn
  refine ⟨injOn_family hs hn, fun words starts name hwalk hnamed => ⟨?_, ?_, ?_⟩⟩
  · intro i id' hresolve hmem
    exact exists_of_redefined hs hn hnamed hwalk hresolve hmem
  · intro hmem hdistinct i id'
    exact resolve_ne_redefined hs hn hnamed hwalk hmem hdistinct i id'
  · intro p hresolve i hi callee hcallee hrefers
    exact exists_target_of_refers hs hn hnamed hwalk hresolve hi hcallee hrefers

/-- Two characters of two bytes, and two labels whose names differ in their last digits. -/
theorem id_ne_of_last_group_of_loops :
    id "loopé" ≠ id "loopü" ∧
      (∀ i id', resolve #[18, id "loop1", 18, id "loop2", 19, id "loop2"] ≠
        .error (.redefined id' i)) ∧
      ∃ p, resolve #[18, id "loop1", 18, id "loop2", 19, id "loop2"] = .ok p ∧
        p.words[5]? = some (-2 : Word) := by
  obtain ⟨hne, hfamily⟩ := id_ne_of_last_group
  obtain ⟨-, hnamed⟩ := hfamily "loop" 1 (by decide) (by decide)
  have hmem : ∀ i, (if i = 0 then "loop1" else "loop2") ∈ family "loop" 1 := by
    intro i
    split
    · exact ⟨"1", rfl, rfl, List.forall_mem_singleton.mpr (by decide)⟩
    · exact ⟨"2", rfl, rfl, List.forall_mem_singleton.mpr (by decide)⟩
  have honly : ∀ i ∈ [0, 2, 4], ∀ id', Defines #[18, id "loop1", 18, id "loop2", 19, id "loop2"]
      i id' → (i = 0 ∨ i = 2) ∧ id' = id (if i = 0 then "loop1" else "loop2") := by
    intro i hi id' h
    obtain rfl | rfl | rfl : i = 0 ∨ i = 2 ∨ i = 4 := by simpa using hi
    · exact ⟨Or.inl rfl, (Option.some.inj h.2).symm⟩
    · exact ⟨Or.inr rfl, (Option.some.inj h.2).symm⟩
    · exact absurd (Option.some.inj h.1) (by decide)
  obtain ⟨-, hfresh, htarget⟩ :=
    hnamed #[18, id "loop1", 18, id "loop2", 19, id "loop2"] [0, 2, 4]
      (fun i => if i = 0 then "loop1" else "loop2") (by with_unfolding_all rfl)
      fun i hi id' h => (honly i hi id' h).2
  refine ⟨hne "loop" "é" "ü" (by decide) (by decide) (by decide) (by decide), ?_, ?_⟩
  · refine hfresh (fun i _ => hmem i) ?_
    rintro i ⟨hi, id', h⟩ j ⟨hj, id'', h'⟩ hname
    obtain ⟨hzero | htwo, -⟩ := honly i hi id' h <;>
      obtain ⟨hzero' | htwo', -⟩ := honly j hj id'' h'
    · exact hzero.trans hzero'.symm
    · exact absurd hname (by subst hzero htwo'; decide)
    · exact absurd hname (by subst htwo hzero'; decide)
    · exact htwo.trans htwo'.symm
  · have hresolve : resolve #[18, id "loop1", 18, id "loop2", 19, id "loop2"] =
        .ok ⟨#[18, id "loop1", 18, id "loop2", 19, -2]⟩ := by decide +kernel
    refine ⟨_, hresolve, ?_⟩
    obtain ⟨t, hdefined, hword, hname | hother⟩ :=
      htarget _ hresolve 4 (by decide) "loop2" (hmem 1) (Or.inl ⟨.always, rfl, rfl⟩)
    · rcases (honly t hdefined.1 _ hdefined.2.1).1 with rfl | rfl
      · exact absurd hname (by decide)
      · exact hword
    · exact absurd (hmem t) hother

end WordMachine.Label
