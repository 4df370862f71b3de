import Mathlib.Logic.Relation
import WordMachine.Proofs.Numerals

/-!
# The format of images

Which texts are images of programs is told here in terms of their pieces.  The pieces are what
stands between semicolons, without the blanks around it and as far as anything is left
(`HasPieces`).  Each of them has to be a word: a hexadecimal numeral whose value a word can have
(`IsWord`).  If one is not, the first such piece is reported, whatever stands before it.  Only if
they all are, their values are checked as a program.

So a text may be edited in many ways without any change of the program: blanks around pieces, blank
pieces, the case of letters and zeros in front of digits do not matter (`Edit`).
-/

namespace WordMachine.Image

open Text

variable {s t : List Char} {ss : List (List Char)} {ws : List Word} {n : Nat}

/-! ## Pieces and words -/

/-- The pieces of a text that count. -/
def HasPieces (text : List Char) (ss : List (List Char)) : Prop :=
  ∃ parts trimmed, Joins separator parts text ∧ List.Forall₂ Trims parts trimmed ∧
    ss = trimmed.filter fun s => !s.isEmpty

/-- A piece is a word if it is a numeral of a value between the least and the greatest word. -/
def IsWord (s : List Char) : Prop :=
  ∃ i, Numeral 16 s i ∧ -0x80000000 ≤ i ∧ i ≤ 0x7fffffff

theorem forall₂_trims_iff {parts trimmed : List (List Char)} :
    List.Forall₂ Trims parts trimmed ↔ parts.map trim = trimmed := by
  have htrims : Trims = fun s t => trim s = t := by
    ext s t
    exact trims_iff
  rw [htrims, ← List.forall₂_map_left_iff, List.forall₂_eq_eq_eq]

theorem hasPieces_iff {text : List Char} : HasPieces text ss ↔ ss = pieces text := by
  constructor
  · rintro ⟨parts, trimmed, hjoins, htrims, rfl⟩
    rw [pieces, joins_iff.mp hjoins, forall₂_trims_iff.mp htrims]
  · rintro rfl
    exact ⟨_, _, joins_iff.mpr rfl, forall₂_trims_iff.mpr rfl, rfl⟩

theorem signedWord?_iff {w : Word} : signedWord? 16 s = some w ↔ Numeral 16 s w.toInt :=
  signedWord?_eq_some_iff (by decide)

/-- The words among the pieces are those that are read. -/
theorem isWord_iff : IsWord s ↔ ∃ w, signedWord? 16 s = some w := by
  constructor
  · rintro ⟨i, hs, hlower, hupper⟩
    have hvalue : (Word.wrap i).toInt = i := Int32.toInt_ofInt_of_le hlower (by omega)
    exact ⟨Word.wrap i, signedWord?_iff.mpr (hvalue.symm ▸ hs)⟩
  · rintro ⟨w, hs⟩
    have hlower := w.le_toInt
    have hupper := w.toInt_lt
    exact ⟨w.toInt, signedWord?_iff.mp hs, by omega, by omega⟩

theorem not_isWord_iff : ¬ IsWord s ↔ signedWord? 16 s = none := by
  rw [isWord_iff, not_exists, Option.eq_none_iff_forall_ne_some]

/-! ## Reading the pieces -/

/-- Pieces are read to their end if they are all words, and they give their values. -/
theorem readWords_eq_ok_iff {index : Nat} :
    readWords index ss = .ok ws ↔ ss.map (signedWord? 16) = ws.map some := by
  induction ss generalizing index ws with
  | nil => cases ws <;> simp [readWords]
  | cons s ss ih =>
      rw [readWords, List.map_cons]
      cases hs : signedWord? 16 s with
      | none => cases ws <;> simp
      | some w =>
          cases ws with
          | nil => cases readWords (index + 1) ss <;> simp [Except.map]
          | cons v vs =>
              have hrest : readWords (index + 1) ss = .ok vs ↔ _ := ih
              rw [List.map_cons, List.cons_eq_cons, ← hrest]
              cases readWords (index + 1) ss <;> simp [Except.map]

/-- The first piece that is no word is reported with its number. -/
theorem readWords_append_cons {index : Nat} {front rest : List (List Char)}
    (hfront : ∀ f ∈ front, IsWord f) (hs : ¬ IsWord s) :
    readWords index (front ++ s :: rest) =
      .error (.badWord (index + front.length) (String.ofList s)) := by
  induction front generalizing index with
  | nil =>
      rw [List.nil_append, readWords, not_isWord_iff.mp hs]
      rfl
  | cons f front ih =>
      obtain ⟨hf, hfront⟩ := List.forall_mem_cons.mp hfront
      obtain ⟨w, hw⟩ := isWord_iff.mp hf
      rw [List.cons_append, readWords, hw]
      simp only
      rw [ih hfront, List.length_cons, Nat.add_assoc, Nat.add_comm 1]
      rfl

/-- The values of pieces that are all words. -/
theorem exists_words (hss : ∀ s ∈ ss, IsWord s) : ∃ ws : List Word,
    List.Forall₂ (fun s w => Numeral 16 s w.toInt) ss ws ∧
      ss.map (signedWord? 16) = ws.map some := by
  induction ss with
  | nil => exact ⟨[], .nil, rfl⟩
  | cons s ss ih =>
      obtain ⟨hs, hss⟩ := List.forall_mem_cons.mp hss
      obtain ⟨w, hw⟩ := isWord_iff.mp hs
      obtain ⟨ws, hws, hmap⟩ := ih hss
      exact ⟨w :: ws, .cons (signedWord?_iff.mp hw) hws, by rw [List.map_cons, hw, hmap]; rfl⟩

/-- Some piece is the first that is no word, or they are all words. -/
theorem exists_first_or_forall (ss : List (List Char)) :
    (∃ front s rest, ss = front ++ s :: rest ∧ (∀ f ∈ front, IsWord f) ∧ ¬ IsWord s) ∨
      ∀ s ∈ ss, IsWord s := by
  induction ss with
  | nil => exact Or.inr (by simp)
  | cons s ss ih =>
      by_cases hs : IsWord s
      · rcases ih with ⟨front, t, rest, rfl, hfront, ht⟩ | hss
        · exact Or.inl ⟨s :: front, t, rest, rfl, List.forall_mem_cons.mpr ⟨hs, hfront⟩, ht⟩
        · exact Or.inr (List.forall_mem_cons.mpr ⟨hs, hss⟩)
      · exact Or.inl ⟨[], s, ss, rfl, by simp, hs⟩

/-- The outcome of reading the image that has the given words. -/
def checked (ws : List Word) : Except ImageError Program :=
  match Program.check ws.toArray with
  | .error e => .error (.program e)
  | .ok p => .ok p

theorem decode_of_words {text : String}
    (hws : (pieces text.toList).map (signedWord? 16) = ws.map some) : decode text = checked ws := by
  rw [decode, readWords_eq_ok_iff.mpr hws]
  rfl

theorem decode_of_bad {text : String} {front rest : List (List Char)}
    (hpieces : pieces text.toList = front ++ s :: rest) (hfront : ∀ f ∈ front, IsWord f)
    (hs : ¬ IsWord s) :
    decode text = .error (.badWord front.length (String.ofList s)) := by
  rw [decode, hpieces, readWords_append_cons hfront hs, Nat.zero_add]

/-! ## Edits -/

/-- Another spelling of one piece: with more blanks around it, with letters of another case, or with
one more zero before the digits. -/
inductive Respelled : List Char → List Char → Prop
  | blanks {l s r : List Char} (hl : ∀ c ∈ l, isBlank c = true) (hr : ∀ c ∈ r, isBlank c = true) :
    Respelled s (l ++ s ++ r)
  | letters {s t : List Char} (hst : s.map Char.toLower = t.map Char.toLower) : Respelled s t
  | zero {sign s : List Char} {n : Nat} (hsign : sign ∈ [[], ['+'], ['-']])
    (hs : Denotes 16 s n) : Respelled (sign ++ s) (sign ++ '0' :: s)

/-- The text of the given pieces. -/
def join (parts : List (List Char)) : List Char := [separator].intercalate parts

/-- A change of a text that changes no word: one piece is spelled in another way, or one more blank
piece is put between two pieces or at an end. -/
inductive Edit : List Char → List Char → Prop
  | respell (before after : List (List Char)) {s t : List Char} (hs : separator ∉ s)
    (ht : separator ∉ t) (hst : Respelled s t) :
    Edit (join (before ++ s :: after)) (join (before ++ t :: after))
  | blank (before after : List (List Char)) {s : List Char} (hs : ∀ c ∈ s, isBlank c = true) :
    Edit (join (before ++ after)) (join (before ++ s :: after))

theorem pieces_of_notMem (hs : separator ∉ s) :
    pieces s = [trim s].filter fun s => !s.isEmpty := by
  have hwhole : Text.pieces (· == separator) s = [s] := pieces_of_not_sep fun c hc => by
    rw [beq_eq_false_iff_ne]
    rintro rfl
    exact hs hc
  rw [pieces, hwhole, List.map_singleton]

theorem pieces_of_blank (hs : ∀ c ∈ s, isBlank c = true) : pieces s = [] := by
  have hvisible : isBlank separator = false := by decide
  rw [pieces_of_notMem fun hmem => by simp [hs _ hmem] at hvisible, trim_of_blank hs]
  rfl

/-- Joined texts have the pieces that they have one by one. -/
theorem pieces_join (parts : List (List Char)) : pieces (join parts) = parts.flatMap pieces := by
  unfold join
  induction parts with
  | nil => rfl
  | cons s parts ih =>
      cases parts with
      | nil => simp
      | cons t parts =>
          rw [List.intercalate_cons_cons, List.append_assoc, List.singleton_append, pieces,
            pieces_append_sep (by simp), List.map_append, List.filter_append, List.flatMap_cons,
            ← ih, pieces, pieces]

/-- There is nothing to trim at a numeral. -/
theorem trim_signed {sign : List Char} (hsign : sign ∈ [[], ['+'], ['-']])
    (hs : Denotes 16 s n) : trim (sign ++ s) = sign ++ s := by
  have hvisible : ∀ c ∈ sign, isBlank c = false := by
    simp only [List.mem_cons, List.not_mem_nil, or_false] at hsign
    rcases hsign with rfl | rfl | rfl
    · exact List.forall_mem_nil _
    · exact List.forall_mem_singleton.mpr (by decide)
    · exact List.forall_mem_singleton.mpr (by decide)
  exact trim_of_not_blank (List.forall_mem_append.mpr ⟨hvisible, hs.not_blank⟩)

/-- Spelling a piece in another way changes no word. -/
theorem map_pieces_of_respelled (hs : separator ∉ s) (ht : separator ∉ t)
    (hst : Respelled s t) :
    (pieces s).map (signedWord? 16) = (pieces t).map (signedWord? 16) := by
  rw [pieces_of_notMem hs, pieces_of_notMem ht]
  -- it is enough that both trimmed texts are empty or neither is, and that they are read alike
  suffices hboth : (trim s).isEmpty = (trim t).isEmpty ∧
      signedWord? 16 (trim s) = signedWord? 16 (trim t) by
    obtain ⟨hempty, hread⟩ := hboth
    rw [List.filter_singleton, List.filter_singleton, hempty]
    cases (trim t).isEmpty with
    | false => exact congrArg (fun w => [w]) hread
    | true => rfl
  cases hst with
  | blanks hl hr => rw [trim_append_append hl hr]; exact ⟨rfl, rfl⟩
  | letters hst =>
      have htrim : (trim s).map Char.toLower = (trim t).map Char.toLower := by
        rw [← trim_map_toLower, hst, trim_map_toLower]
      constructor
      · rw [← List.isEmpty_map (f := Char.toLower), htrim, List.isEmpty_map]
      · exact signedWord?_congr (by decide) fun i =>
          ⟨Numeral.of_map_toLower htrim, Numeral.of_map_toLower htrim.symm⟩
  | @zero sign s n hsign hdigits =>
      have hzero : Denotes 16 ('0' :: s) n := (denotes_zero_cons (by decide) hdigits.1).mpr hdigits
      have hnonempty : ∀ rest : List Char, rest ≠ [] → (sign ++ rest).isEmpty = false :=
        fun rest hrest => List.isEmpty_eq_false_iff.mpr (List.append_ne_nil_of_right_ne_nil _ hrest)
      rw [trim_signed hsign hdigits, trim_signed hsign hzero, hnonempty s hdigits.1,
        hnonempty ('0' :: s) hzero.1]
      refine ⟨rfl, ?_⟩
      exact signedWord?_congr (by decide) fun i => (numeral_append_zero hsign hdigits).symm

theorem map_pieces_of_edit (hst : Edit s t) :
    (pieces s).map (signedWord? 16) = (pieces t).map (signedWord? 16) := by
  cases hst with
  | respell before after hs ht hst =>
      simp only [pieces_join, List.flatMap_append, List.flatMap_cons, List.map_append,
        map_pieces_of_respelled hs ht hst]
  | blank before after hs =>
      simp only [pieces_join, List.flatMap_append, List.flatMap_cons, pieces_of_blank hs,
        List.nil_append]

/-- After any number of edits, forward or backward, the words are the same. -/
theorem map_pieces_of_eqvGen (hst : Relation.EqvGen Edit s t) :
    (pieces s).map (signedWord? 16) = (pieces t).map (signedWord? 16) := by
  induction hst with
  | rel _ _ hedit => exact map_pieces_of_edit hedit
  | refl => rfl
  | symm _ _ _ ih => exact ih.symm
  | trans _ _ _ _ _ ih ih' => exact ih.trans ih'

/-! ## The format -/

theorem checked_eq_ok_iff {p : Program} :
    checked ws = .ok p ↔ Program.check ws.toArray = .ok p := by
  unfold checked
  cases Program.check ws.toArray <;> simp

theorem decode_eq_ok_iff {text : String} {p : Program} :
    decode text = .ok p ↔
      ∃ ws : List Word, (pieces text.toList).map (signedWord? 16) = ws.map some ∧
        Program.check ws.toArray = .ok p := by
  constructor
  · intro hdecode
    rcases exists_first_or_forall (pieces text.toList) with
      ⟨front, s, rest, hpieces, hfront, hs⟩ | hwords
    · rw [decode_of_bad hpieces hfront hs] at hdecode
      cases hdecode
    · obtain ⟨ws, -, hmap⟩ := exists_words hwords
      rw [decode_of_words hmap, checked_eq_ok_iff] at hdecode
      exact ⟨ws, hmap, hdecode⟩
  · rintro ⟨ws, hmap, hcheck⟩
    rw [decode_of_words hmap, checked_eq_ok_iff]
    exact hcheck

/-- What reading a text as an image comes to.  If some of its pieces are no words, the first of them
is reported with its number among the pieces.  Else the values of the pieces are checked as a
program.  Edits that change no word lead to the same program. -/
theorem decode_outcome (text : String) :
    ∃ ss, (∀ ss', HasPieces text.toList ss' ↔ ss' = ss) ∧
      ((∃ front s rest, ss = front ++ s :: rest ∧ (∀ f ∈ front, IsWord f) ∧ ¬ IsWord s ∧
          decode text = .error (.badWord front.length (String.ofList s))) ∨
        ∃ ws : List Word, List.Forall₂ (fun s w => Numeral 16 s w.toInt) ss ws ∧
          decode text =
            match Program.check ws.toArray with
            | .error e => .error (.program e)
            | .ok p => .ok p) ∧
      ∀ text' : String, Relation.EqvGen Edit text.toList text'.toList →
        ∀ p, decode text = .ok p ↔ decode text' = .ok p := by
  refine ⟨pieces text.toList, fun _ => hasPieces_iff, ?_, fun text' hedits p => ?_⟩
  · rcases exists_first_or_forall (pieces text.toList) with
      ⟨front, s, rest, hpieces, hfront, hs⟩ | hwords
    · exact Or.inl ⟨front, s, rest, hpieces, hfront, hs, decode_of_bad hpieces hfront hs⟩
    · obtain ⟨ws, hws, hmap⟩ := exists_words hwords
      exact Or.inr ⟨ws, hws, decode_of_words hmap⟩
  · rw [decode_eq_ok_iff, decode_eq_ok_iff, map_pieces_of_eqvGen hedits]

/-- An instruction with a capital letter, a zero in front and blanks around it, and with more
separators than are needed. -/
theorem decode_outcome_of_edited :
    Relation.EqvGen Edit "1;0;1a".toList "1;0; 01A\t;;".toList ∧
      decode "1;0;1a" = .ok ⟨#[1, 0, 26]⟩ ∧ decode "1;0; 01A\t;;" = .ok ⟨#[1, 0, 26]⟩ := by
  have hdecode : decode "1;0;1a" = .ok ⟨#[1, 0, 26]⟩ := by with_unfolding_all rfl
  have hdigits : Denotes 16 ['1', 'a'] 26 :=
    ⟨by decide, [1, 10], .cons ⟨by decide, rfl⟩ (.cons ⟨by decide, rfl⟩ .nil), rfl⟩
  -- the last piece is edited three times, and then twice a blank one is put behind it
  have hzero : Edit "1;0;1a".toList "1;0;01a".toList := by
    have hspelled : Respelled ([] ++ ['1', 'a']) ([] ++ ['0', '1', 'a']) :=
      .zero (by decide) hdigits
    exact .respell [['1'], ['0']] [] (by decide) (by decide) hspelled
  have hletter : Edit "1;0;01a".toList "1;0;01A".toList := by
    have hspelled : Respelled ['0', '1', 'a'] ['0', '1', 'A'] := .letters rfl
    exact .respell [['1'], ['0']] [] (by decide) (by decide) hspelled
  have hblanks : Edit "1;0;01A".toList "1;0; 01A\t".toList := by
    have hspelled : Respelled ['0', '1', 'A'] ([' '] ++ ['0', '1', 'A'] ++ ['\t']) :=
      .blanks (List.forall_mem_singleton.mpr (by decide)) (List.forall_mem_singleton.mpr (by decide))
    exact .respell [['1'], ['0']] [] (by decide) (by decide) hspelled
  have hblank : ∀ c ∈ [], isBlank c = true := List.forall_mem_nil _
  have hend : Edit "1;0; 01A\t".toList "1;0; 01A\t;".toList :=
    .blank [['1'], ['0'], [' ', '0', '1', 'A', '\t']] [] hblank
  have hagain : Edit "1;0; 01A\t;".toList "1;0; 01A\t;;".toList :=
    .blank [['1'], ['0'], [' ', '0', '1', 'A', '\t'], []] [] hblank
  have hedits : Relation.EqvGen Edit "1;0;1a".toList "1;0; 01A\t;;".toList :=
    ((((Relation.EqvGen.rel _ _ hzero).trans _ _ _ (.rel _ _ hletter)).trans _ _ _
      (.rel _ _ hblanks)).trans _ _ _ (.rel _ _ hend)).trans _ _ _ (.rel _ _ hagain)
  obtain ⟨-, -, -, hsame⟩ := decode_outcome "1;0;1a"
  exact ⟨hedits, hdecode, (hsame _ hedits _).mp hdecode⟩

end WordMachine.Image
