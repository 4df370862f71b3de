import WordMachine.Program.Image
import WordMachine.Proofs.Positions

/-!
# Programs kept as text

An image keeps a program word by word, so reading it gives back the words that were written,
whatever they are, and what becomes of them is up to `Program.check` alone (`decode_encode`).

Reading is more liberal than writing, and several texts stand for one program.  Among them the image
that is written of the program is the canonical one: it is a single line without blanks, it stands
for the same program, and two texts that can be read have the same canonical form exactly if they
stand for the same program (`image_round_trip`).
-/

namespace WordMachine

namespace Text

/-! ## Digits, blanks and pieces -/

/-- The digits of a number are digits of its base. -/
theorem exists_digitChar_of_mem_toDigits {base n : Nat} (htwo : 1 < base) {c : Char}
    (hc : c ∈ Nat.toDigits base n) : ∃ d < base, c = Nat.digitChar d := by
  induction n using Nat.strongRecOn with
  | ind n ih =>
      by_cases hsmall : n < base
      · rw [Nat.toDigits_of_lt_base hsmall, List.mem_singleton] at hc
        exact ⟨n, hsmall, hc⟩
      · rw [Nat.toDigits_of_base_le htwo (by omega)] at hc
        rcases List.mem_append.mp hc with hfront | hlast
        · exact ih (n / base) (Nat.div_lt_self (by omega) htwo) hfront
        · exact ⟨n % base, Nat.mod_lt n (by omega), List.mem_singleton.mp hlast⟩

theorem notMem_toDigits {base n : Nat} (htwo : 1 < base) {c : Char}
    (hdigits : ∀ d < base, c ≠ Nat.digitChar d) : c ∉ Nat.toDigits base n := by
  intro hmem
  obtain ⟨d, hd, heq⟩ := exists_digitChar_of_mem_toDigits htwo hmem
  exact hdigits d hd heq

/-- Without a plus sign in front, all characters of a number are its digits. -/
theorem unsigned_eq_magnitude {base bound : Nat} {s : List Char} (hne : s ≠ [])
    (hs : ∀ c ∈ s, c ≠ '+') : unsigned base bound s = magnitude base bound 0 s := by
  obtain ⟨c, cs, rfl⟩ := List.exists_cons_of_ne_nil hne
  have hplus := hs c (List.mem_cons_self ..)
  unfold unsigned
  split <;> simp_all

/-- Without a sign in front, all characters of a numeral are its digits. -/
theorem signedWord?_of_unsigned {base : Nat} {s : List Char} (hne : s ≠ [])
    (hs : ∀ c ∈ s, c ≠ '+' ∧ c ≠ '-') :
    signedWord? base s = (magnitude base 0x80000000 0 s).toOption.map Word.ofCount := by
  have hunsigned : unsigned base 0x80000000 s = magnitude base 0x80000000 0 s :=
    unsigned_eq_magnitude hne fun c hc => (hs c hc).1
  obtain ⟨c, cs, rfl⟩ := List.exists_cons_of_ne_nil hne
  have hminus := (hs c (List.mem_cons_self ..)).2
  unfold signedWord?
  split
  · next heq => exact absurd (List.cons.inj heq).1 hminus
  · next heq => exact absurd (List.cons.inj heq).1 hminus
  · rw [hunsigned]

theorem signedWord?_minus {base : Nat} {s : List Char} (hs : s ≠ []) :
    signedWord? base ('-' :: s) =
      (magnitude base 0x80000001 0 s).toOption.map fun n => Word.wrap (-n) := by
  obtain ⟨c, cs, rfl⟩ := List.exists_cons_of_ne_nil hs
  rfl

theorem magnitude_toDigits_hex {bound n : Nat} (hn : n < bound) :
    magnitude 16 bound 0 (Nat.toDigits 16 n) = .ok n :=
  magnitude_toDigits (by decide) (fun _ hd => digitValue?_digitChar hd) hn

theorem dropWhile_isBlank {s : List Char} (hfirst : ∀ c, s.head? = some c → isBlank c = false) :
    s.dropWhile isBlank = s := by
  cases s with
  | nil => rfl
  | cons c s => rw [List.dropWhile_cons_of_neg (by simp [hfirst c rfl])]

/-- Trimming leaves alone what neither begins nor ends with a blank. -/
theorem trim_eq_self {s : List Char} (hfirst : ∀ c, s.head? = some c → isBlank c = false)
    (hlast : ∀ c, s.getLast? = some c → isBlank c = false) : trim s = s := by
  have hreverse : ∀ c, s.reverse.head? = some c → isBlank c = false := by
    rw [List.head?_reverse]
    exact hlast
  rw [trim, trimStart, dropWhile_isBlank hfirst, trimEnd, dropWhile_isBlank hreverse,
    List.reverse_reverse]

theorem trim_of_not_blank {s : List Char} (hs : ∀ c ∈ s, isBlank c = false) : trim s = s :=
  trim_eq_self (fun c hc => hs c (List.mem_of_head? hc)) fun c hc => hs c (List.mem_of_getLast? hc)

/-- Up to its first separator a text is one piece. -/
theorem pieces_append_cons {sep : Char → Bool} {s : List Char} {c : Char} (rest : List Char)
    (hs : ∀ d ∈ s, sep d = false) (hc : sep c = true) :
    pieces sep (s ++ c :: rest) = s :: pieces sep rest := by
  induction s with
  | nil => simp [pieces, hc]
  | cons d s ih =>
      have hd := hs d (List.mem_cons_self ..)
      have hrest := ih fun e he => hs e (List.mem_cons_of_mem d he)
      simp [pieces, hd, hrest]

end Text

namespace Image

open Text

variable {p q : Program} {w : Word} {ws : List Word} {c : Char}

/-! ## Words -/

/-- The characters of words: the sixteen digits and the minus sign. -/
def IsWordChar (c : Char) : Prop :=
  c = '-' ∨ ∃ d < 16, c = Nat.digitChar d

/-- No character of a word separates pieces, and none is a blank. -/
theorem IsWordChar.visible (hc : IsWordChar c) : c ≠ separator ∧ isBlank c = false := by
  have hdigit : ∀ d < 16, Nat.digitChar d ≠ separator ∧ isBlank (Nat.digitChar d) = false := by
    decide
  rcases hc with rfl | ⟨d, hd, rfl⟩
  · decide
  · exact hdigit d hd

theorem isWordChar_of_mem_encodeWord (hc : c ∈ encodeWord w) : IsWordChar c := by
  have hdigits : ∀ n, c ∈ Nat.toDigits 16 n → IsWordChar c := fun n h =>
    Or.inr (exists_digitChar_of_mem_toDigits (by decide) h)
  unfold encodeWord at hc
  split at hc
  · rcases List.mem_cons.mp hc with rfl | hmem
    · exact Or.inl rfl
    · exact hdigits _ hmem
  · exact hdigits _ hc

theorem encodeWord_ne_nil (w : Word) : encodeWord w ≠ [] := by
  unfold encodeWord
  split
  · exact List.cons_ne_nil _ _
  · exact Nat.toDigits_ne_nil

theorem signedWord?_toDigits {n : Nat} (hn : n < 0x80000000) :
    signedWord? 16 (Nat.toDigits 16 n) = some (Word.ofCount n) := by
  have hplain : ∀ d < 16, Nat.digitChar d ≠ '+' ∧ Nat.digitChar d ≠ '-' := by decide
  rw [signedWord?_of_unsigned Nat.toDigits_ne_nil, magnitude_toDigits_hex hn]
  · rfl
  · intro c hc
    obtain ⟨d, hd, rfl⟩ := exists_digitChar_of_mem_toDigits (by decide) hc
    exact hplain d hd

/-- A word reads back as it was written.  The magnitude of the least word is above all words, and
only behind a minus sign is it a word. -/
theorem signedWord?_encodeWord (w : Word) : signedWord? 16 (encodeWord w) = some w := by
  have hlower := w.le_toInt
  have hupper := w.toInt_lt
  unfold encodeWord
  split
  · next hnegative =>
    -- `ofInt` brings the magnitude back under the minus sign, also if it is `2 ^ 31`
    have hvalue : -(w.toInt.natAbs : Int) = w.toInt := by omega
    rw [signedWord?_minus Nat.toDigits_ne_nil, magnitude_toDigits_hex (by omega)]
    change some (Int32.ofInt (-(w.toInt.natAbs : Int))) = some w
    rw [hvalue, Int32.ofInt_toInt]
  · next hpositive =>
    have hvalue : w.toInt = w.toInt.natAbs := by omega
    rw [signedWord?_toDigits (by omega), ← Word.eq_ofCount_of_toInt hvalue]

/-! ## Images -/

/-- The image of a program without the line feed at its end. -/
def line (p : Program) : List Char :=
  p.words.toList.flatMap fun w => encodeWord w ++ [separator]

theorem toList_encode (p : Program) : (encode p).toList = line p ++ ['\n'] :=
  String.toList_ofList

theorem mem_line (hc : c ∈ line p) : c = separator ∨ IsWordChar c := by
  obtain ⟨w, -, hmem⟩ := List.mem_flatMap.mp hc
  rcases List.mem_append.mp hmem with hword | hend
  · exact Or.inr (isWordChar_of_mem_encodeWord hword)
  · exact Or.inl (List.mem_singleton.mp hend)

theorem not_blank_of_mem_line (hc : c ∈ line p) : isBlank c = false := by
  rcases mem_line hc with rfl | hword
  · decide
  · exact hword.visible.2

/-- The pieces of an image are its words, and the line feed at its end does not count. -/
theorem pieces_flatMap_encodeWord (ws : List Word) :
    pieces (ws.flatMap (fun w => encodeWord w ++ [separator]) ++ ['\n']) = ws.map encodeWord := by
  unfold pieces
  induction ws with
  | nil => rfl
  | cons w ws ih =>
      have hword : ∀ c ∈ encodeWord w, IsWordChar c := fun c hc => isWordChar_of_mem_encodeWord hc
      have htrim : trim (encodeWord w) = encodeWord w :=
        trim_of_not_blank fun c hc => (hword c hc).visible.2
      -- the first separator ends the first word, so the rest is an image again
      rw [List.flatMap_cons, List.append_assoc, List.append_assoc, List.singleton_append,
        pieces_append_cons _ (fun c hc => by simpa using (hword c hc).visible.1) (by decide),
        List.map_cons, htrim, List.filter_cons_of_pos (by simp [encodeWord_ne_nil]), ih,
        List.map_cons]

theorem readWords_map_encodeWord (index : Nat) (ws : List Word) :
    readWords index (ws.map encodeWord) = .ok ws := by
  induction ws generalizing index with
  | nil => rfl
  | cons w ws ih =>
      rw [List.map_cons, readWords, signedWord?_encodeWord, ih]
      rfl

/-- The words of an image are the words of the program. -/
theorem readWords_encode (p : Program) :
    readWords 0 (pieces (encode p).toList) = .ok p.words.toList := by
  rw [toList_encode, line, pieces_flatMap_encodeWord, readWords_map_encodeWord]

/-- Reading the image of a program checks its words. -/
theorem decode_encode (p : Program) :
    decode (encode p) =
      match Program.check p.words with
      | .ok _ => .ok p
      | .error e => .error (.program e) := by
  simp only [decode, readWords_encode, Program.check]
  cases walk p.words <;> rfl

/-- Different programs have different images. -/
theorem encode_injective : Function.Injective encode := by
  intro p q hencode
  have hwords : p.words = q.words := by
    have hread := readWords_encode p
    rw [hencode, readWords_encode] at hread
    exact (Array.toList_inj.mp (Except.ok.inj hread)).symm
  cases p
  cases q
  exact congrArg Program.mk hwords

/-- A program that has been read can be read to its end. -/
theorem check_of_decode {text : String} (hdecode : decode text = .ok p) :
    Program.check p.words = .ok p := by
  unfold decode at hdecode
  split at hdecode
  · cases hdecode
  · next words hread =>
    unfold Program.check at hdecode ⊢
    cases hwalk : walk words.toArray with
    | error e => rw [hwalk] at hdecode; cases hdecode
    | ok starts =>
        rw [hwalk] at hdecode
        cases hdecode
        rw [hwalk]
        rfl

/-- A single line without blanks, and the line feed that ends it. -/
def IsLine (text : String) : Prop :=
  ∃ s : List Char, text.toList = s ++ ['\n'] ∧ ∀ c ∈ s, isBlank c = false

/-- Reading the image of a program has the outcome of checking the program.  The image of a program
that has been read from some text is the canonical form of this text: a single line that stands for
the same program, and for no other one. -/
theorem image_round_trip :
    (∀ p : Program, decode (encode p) =
      match Program.check p.words with
      | .ok _ => .ok p
      | .error e => .error (.program e)) ∧
    ∀ text q, decode text = .ok q →
      IsLine (encode q) ∧ decode (encode q) = .ok q ∧
        ∀ text' q', decode text' = .ok q' → (encode q' = encode q ↔ q' = q) := by
  refine ⟨decode_encode, fun text q hdecode => ⟨?_, ?_, ?_⟩⟩
  · exact ⟨line q, toList_encode q, fun c hc => not_blank_of_mem_line hc⟩
  · rw [decode_encode, check_of_decode hdecode]
  · intro text' q' hdecode'
    exact encode_injective.eq_iff

/-- The least and the greatest word, written in an unusual way. -/
theorem image_round_trip_of_extremes :
    decode " +1;0;-080000000;;\n1;1; 7FFFFFFF" = .ok ⟨#[1, 0, -0x80000000, 1, 1, 0x7fffffff]⟩ ∧
      IsLine (encode ⟨#[1, 0, -0x80000000, 1, 1, 0x7fffffff]⟩) ∧
      decode (encode ⟨#[1, 0, -0x80000000, 1, 1, 0x7fffffff]⟩) =
        .ok ⟨#[1, 0, -0x80000000, 1, 1, 0x7fffffff]⟩ := by
  have hdecode : decode " +1;0;-080000000;;\n1;1; 7FFFFFFF" =
      .ok ⟨#[1, 0, -0x80000000, 1, 1, 0x7fffffff]⟩ := by
    with_unfolding_all rfl
  obtain ⟨hline, hagain, -⟩ := image_round_trip.2 _ _ hdecode
  exact ⟨hdecode, hline, hagain⟩

end Image

end WordMachine
