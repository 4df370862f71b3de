import Mathlib.Data.List.Forall2
import Mathlib.Data.Nat.Digits.Defs
import WordMachine.Proofs.Cutting

/-!
# What numerals denote

A numeral is an optional sign and one or more digits (`Numeral`), and the number that it denotes is
the one its digits have in the base, the most significant first (`Denotes`).  There is no bound on
the number and none on the digits.

The readers of `Text.Numeral` go from digit to digit and give up as soon as the number gets too
large.  This is no loss, for it never gets smaller again (`magnitude_eq_ok_iff`).  So a numeral is
read as a word exactly if a word has the value that it denotes (`signedWord?_eq_some_iff`).
-/

namespace WordMachine.Text

/-! ## Digits -/

/-- The digits of the bases up to 16, each at its value. -/
def digits : List Char :=
  ['0', '1', '2', '3', '4', '5', '6', '7', '8', '9', 'a', 'b', 'c', 'd', 'e', 'f']

/-- A character is the digit of a base that has the given value; a letter may stand in either
case. -/
def IsDigit (base : Nat) (c : Char) (d : Nat) : Prop :=
  d < base ∧ digits[d]? = some c.toLower

/-- One or more digits, which denote a number in a base. -/
def Denotes (base : Nat) (s : List Char) (n : Nat) : Prop :=
  s ≠ [] ∧ ∃ ds, List.Forall₂ (IsDigit base) s ds ∧ n = Nat.ofDigits base ds.reverse

/-- An optional sign and one or more digits, which denote an integer in a base. -/
inductive Numeral (base : Nat) : List Char → Int → Prop
  | plain {s : List Char} {n : Nat} (hs : Denotes base s n) : Numeral base s n
  | plus {s : List Char} {n : Nat} (hs : Denotes base s n) : Numeral base ('+' :: s) n
  | minus {s : List Char} {n : Nat} (hs : Denotes base s n) : Numeral base ('-' :: s) (-n)

variable {base bound acc n d : Nat} {s : List Char} {c : Char} {w : Word} {i : Int}

theorem alphanumericValue?_eq_none (hc : 128 ≤ c.toNat) : alphanumericValue? c = none := by
  have habove : ∀ e : Char, e.toNat < 128 → ¬ c ≤ e := fun e he hle => by
    have hle : c.toNat ≤ e.toNat := hle
    omega
  unfold alphanumericValue?
  rw [if_neg fun h => habove '9' (by decide) h.2, if_neg fun h => habove 'z' (by decide) h.2,
    if_neg fun h => habove 'Z' (by decide) h.2]

theorem alphanumericValue?_eq_some_iff (hd : d < 16) :
    alphanumericValue? c = some d ↔ digits[d]? = some c.toLower := by
  revert d
  induction c using forall_char with
  | hascii n hn => revert n; decide +kernel
  | hothers c hc =>
      intro d hd
      have hascii : digits.all (·.toNat < 128) = true := by decide
      rw [alphanumericValue?_eq_none hc, toLower_eq_self hc]
      refine iff_of_false (by simp) fun hdigit => ?_
      have hlt : c.toNat < 128 := by
        simpa using List.all_eq_true.mp hascii c (List.mem_of_getElem? hdigit)
      omega

/-- Up to base 16, reading a digit gives its value. -/
theorem digitValue?_eq_some_iff (hbase : base ≤ 16) :
    digitValue? base c = some d ↔ IsDigit base c d := by
  rw [digitValue?, Option.filter_eq_some_iff, decide_eq_true_eq, and_comm]
  exact and_congr_right fun hd => alphanumericValue?_eq_some_iff (Nat.lt_of_lt_of_le hd hbase)

/-- A digit has one value. -/
theorem IsDigit.unique {e : Nat} (hbase : base ≤ 16) (hd : IsDigit base c d)
    (he : IsDigit base c e) : e = d := by
  rw [← digitValue?_eq_some_iff hbase] at hd he
  exact Option.some.inj (he.symm.trans hd)

/-! ## Digits one after the other -/

/-- The first digits of a numeral are worth more by a power of the base. -/
theorem ofDigits_reverse_cons (base d : Nat) (ds : List Nat) :
    Nat.ofDigits base (d :: ds).reverse =
      d * base ^ ds.length + Nat.ofDigits base ds.reverse := by
  rw [List.reverse_cons, Nat.ofDigits_append, Nat.ofDigits_singleton, List.length_reverse]
  ring

/-- A number with digits after it becomes a greater number with one digit less after it. -/
theorem mul_pow_add_ofDigits (acc base d : Nat) (ds : List Nat) :
    acc * base ^ (d :: ds).length + Nat.ofDigits base (d :: ds).reverse =
      (acc * base + d) * base ^ ds.length + Nat.ofDigits base ds.reverse :=
  calc acc * base ^ (d :: ds).length + Nat.ofDigits base (d :: ds).reverse
      = acc * (base ^ ds.length * base) +
          (d * base ^ ds.length + Nat.ofDigits base ds.reverse) := by
        rw [ofDigits_reverse_cons, List.length_cons, pow_succ]
    _ = (acc * base + d) * base ^ ds.length + Nat.ofDigits base ds.reverse := by ring

/-- Digits after a number are read to their end exactly if the number that they all denote is below
the bound. -/
theorem magnitude_eq_ok_iff (hbase : base ≤ 16) (hacc : acc < bound) :
    magnitude base bound acc s = .ok n ↔
      n < bound ∧ ∃ ds, List.Forall₂ (IsDigit base) s ds ∧
        n = acc * base ^ ds.length + Nat.ofDigits base ds.reverse := by
  induction s generalizing acc with
  | nil =>
      simp only [magnitude, Except.ok.injEq, List.forall₂_nil_left_iff, exists_eq_left]
      constructor
      · rintro rfl
        exact ⟨hacc, by simp⟩
      · rintro ⟨-, rfl⟩
        simp
  | cons c s ih =>
      rw [magnitude]
      cases hc : digitValue? base c with
      | none =>
          refine iff_of_false (by simp) ?_
          rintro ⟨-, ds, hds, -⟩
          obtain ⟨d, ds, hd, -, rfl⟩ := List.forall₂_cons_left_iff.mp hds
          rw [(digitValue?_eq_some_iff hbase).mpr hd] at hc
          cases hc
      | some d =>
          have hd := (digitValue?_eq_some_iff hbase).mp hc
          simp only
          split
          · next hlt =>
            rw [ih hlt]
            refine and_congr_right fun _ => ?_
            constructor
            · rintro ⟨ds, hds, rfl⟩
              exact ⟨d :: ds, .cons hd hds, (mul_pow_add_ofDigits ..).symm⟩
            · rintro ⟨_, hall, rfl⟩
              obtain ⟨e, ds, he, hds, rfl⟩ := List.forall₂_cons_left_iff.mp hall
              obtain rfl := hd.unique hbase he
              exact ⟨ds, hds, mul_pow_add_ofDigits ..⟩
          · next hge =>
            refine iff_of_false (by simp) ?_
            rintro ⟨hn, _, hall, rfl⟩
            obtain ⟨e, ds, he, -, rfl⟩ := List.forall₂_cons_left_iff.mp hall
            obtain rfl := hd.unique hbase he
            rw [mul_pow_add_ofDigits] at hn
            have hpow : 0 < base ^ ds.length := Nat.pow_pos (Nat.zero_lt_of_lt hd.1)
            have hle := Nat.le_mul_of_pos_right (acc * base + e) hpow
            omega

theorem magnitude_zero_eq_ok_iff (hbase : base ≤ 16) (hs : s ≠ []) (hbound : 0 < bound) :
    magnitude base bound 0 s = .ok n ↔ n < bound ∧ Denotes base s n := by
  simp only [magnitude_eq_ok_iff hbase hbound, Nat.zero_mul, Nat.zero_add, Denotes, ne_eq, hs,
    not_false_eq_true, true_and]

theorem not_isDigit_sign (hc : c = '+' ∨ c = '-') : ¬ IsDigit base c d := by
  rintro ⟨-, hdigit⟩
  have hmem := List.mem_of_getElem? hdigit
  rcases hc with rfl | rfl <;> exact absurd hmem (by decide)

/-- The digits of a number do not begin with a sign. -/
theorem not_denotes_sign (hc : c = '+' ∨ c = '-') : ¬ Denotes base (c :: s) n := by
  rintro ⟨-, ds, hds, -⟩
  obtain ⟨d, ds, hd, -, -⟩ := List.forall₂_cons_left_iff.mp hds
  exact not_isDigit_sign hc hd

/-! ## Signs -/

/-- A numeral that has no minus sign. -/
theorem unsigned_eq_ok_iff (hbase : base ≤ 16) (hbound : 0 < bound) :
    unsigned base bound s = .ok n ↔
      n < bound ∧ (Denotes base s n ∨ ∃ t, s = '+' :: t ∧ Denotes base t n) := by
  unfold unsigned
  split
  · exact iff_of_false (by simp) (by simp [Denotes])
  · refine iff_of_false (by simp) ?_
    rintro ⟨-, hs | ⟨t, ht, hs⟩⟩
    · exact not_denotes_sign (Or.inl rfl) hs
    · obtain rfl : [] = t := (List.cons.inj ht).2
      exact hs.1 rfl
  · next t ht =>
    have hne : t ≠ [] := fun h => ht (by rw [h])
    rw [magnitude_zero_eq_ok_iff hbase hne hbound]
    refine and_congr_right fun _ => ⟨fun hs => Or.inr ⟨t, rfl, hs⟩, ?_⟩
    rintro (hs | ⟨t', ht', hs⟩)
    · exact absurd hs (not_denotes_sign (Or.inl rfl))
    · obtain rfl : t = t' := (List.cons.inj ht').2
      exact hs
  · next hempty _ hplus =>
    rw [magnitude_zero_eq_ok_iff hbase hempty hbound]
    refine and_congr_right fun _ => ⟨Or.inl, ?_⟩
    rintro (hs | ⟨t, rfl, -⟩)
    · exact hs
    · exact absurd rfl (hplus t)

theorem ofCount_eq_iff (hn : n < 0x80000000) : Word.ofCount n = w ↔ w.toInt = n :=
  ⟨fun h => h ▸ Word.toInt_ofCount hn, fun h => (Word.eq_ofCount_of_toInt h).symm⟩

theorem wrap_neg_eq_iff (hn : n ≤ 0x80000000) : Word.wrap (-n) = w ↔ w.toInt = -n := by
  constructor
  · rintro rfl
    exact Int32.toInt_ofInt_of_le (by omega) (by omega)
  · intro hvalue
    rw [← hvalue]
    exact Int32.ofInt_toInt w

theorem numeral_minus_iff : Numeral base ('-' :: s) i ↔ ∃ n : Nat, i = -n ∧ Denotes base s n := by
  constructor
  · intro hnumeral
    cases hnumeral with
    | plain hs => exact absurd hs (not_denotes_sign (Or.inr rfl))
    | minus hs => exact ⟨_, rfl, hs⟩
  · rintro ⟨n, rfl, hs⟩
    exact .minus hs

theorem numeral_iff_of_not_minus (hs : s.head? ≠ some '-') :
    Numeral base s i ↔
      ∃ n : Nat, i = n ∧ (Denotes base s n ∨ ∃ t, s = '+' :: t ∧ Denotes base t n) := by
  constructor
  · intro hnumeral
    cases hnumeral with
    | plain hs => exact ⟨_, rfl, Or.inl hs⟩
    | plus ht => exact ⟨_, rfl, Or.inr ⟨_, rfl, ht⟩⟩
    | minus ht => exact absurd rfl hs
  · rintro ⟨n, rfl, hs | ⟨t, rfl, ht⟩⟩
    · exact .plain hs
    · exact .plus ht

theorem toOption_map_eq_some_iff {ε α β : Type} {x : Except ε α} {f : α → β} {b : β} :
    x.toOption.map f = some b ↔ ∃ a, x = .ok a ∧ f a = b := by
  cases x <;> simp [Except.toOption]

/-- Without a minus sign, the value is a count. -/
theorem signedWord?_of_not_minus (hs : s.head? ≠ some '-') :
    signedWord? base s = (unsigned base 0x80000000 s).toOption.map Word.ofCount := by
  unfold signedWord?
  split
  · exact absurd rfl hs
  · exact absurd rfl hs
  · rfl

theorem signedWord?_minus_eq_some_iff (hbase : base ≤ 16) :
    signedWord? base ('-' :: s) = some w ↔ ∃ n : Nat, w.toInt = -n ∧ Denotes base s n := by
  have hlower := w.le_toInt
  by_cases hs : s = []
  · subst hs
    refine iff_of_false (by simp [signedWord?]) ?_
    rintro ⟨n, -, hdigits⟩
    exact hdigits.1 rfl
  · have hread : signedWord? base ('-' :: s) =
        (magnitude base 0x80000001 0 s).toOption.map fun n : Nat => Word.wrap (-(n : Int)) := by
      rw [signedWord?_minus hs]
      cases magnitude base 0x80000001 0 s <;> rfl
    rw [hread, toOption_map_eq_some_iff]
    refine exists_congr fun n => ?_
    rw [magnitude_zero_eq_ok_iff hbase hs (by decide)]
    constructor
    · rintro ⟨⟨hn, hdigits⟩, hvalue⟩
      exact ⟨(wrap_neg_eq_iff (by omega)).mp hvalue, hdigits⟩
    · rintro ⟨hvalue, hdigits⟩
      -- the magnitude of the least word is the greatest one that is wanted
      exact ⟨⟨by omega, hdigits⟩, (wrap_neg_eq_iff (by omega)).mpr hvalue⟩

/-- A numeral is read as the word whose value it denotes, if there is one, and no other text is
read. -/
theorem signedWord?_eq_some_iff (hbase : base ≤ 16) :
    signedWord? base s = some w ↔ Numeral base s w.toInt := by
  have hupper := w.toInt_lt
  by_cases hminus : s.head? = some '-'
  · obtain ⟨t, rfl⟩ := List.head?_eq_some_iff.mp hminus
    rw [signedWord?_minus_eq_some_iff hbase, numeral_minus_iff]
  · rw [signedWord?_of_not_minus hminus, toOption_map_eq_some_iff,
      numeral_iff_of_not_minus hminus]
    refine exists_congr fun n => ?_
    rw [unsigned_eq_ok_iff hbase (by decide)]
    constructor
    · rintro ⟨⟨hn, hs⟩, hvalue⟩
      exact ⟨(ofCount_eq_iff hn).mp hvalue, hs⟩
    · rintro ⟨hvalue, hs⟩
      exact ⟨⟨by omega, hs⟩, (ofCount_eq_iff (by omega)).mpr hvalue⟩

/-! ## Spellings of one number -/

theorem isDigit_toLower : IsDigit base c.toLower d ↔ IsDigit base c d := by
  unfold IsDigit
  rw [toLower_toLower]

/-- The case of letters does not matter for a number. -/
theorem Denotes.of_map_toLower {t : List Char} (hst : s.map Char.toLower = t.map Char.toLower)
    (hs : Denotes base s n) : Denotes base t n := by
  have hmap : ∀ s, Denotes base (s.map Char.toLower) n ↔ Denotes base s n := fun s => by
    simp only [Denotes, ne_eq, List.map_eq_nil_iff, List.forall₂_map_left_iff, isDigit_toLower]
  rwa [← hmap, hst, hmap] at hs

theorem eq_cons_of_map_toLower {e : Char} {t : List Char} (he : e.isAlpha = false)
    (hst : (e :: s).map Char.toLower = t.map Char.toLower) :
    ∃ t', t = e :: t' ∧ s.map Char.toLower = t'.map Char.toLower := by
  obtain ⟨c, t', rfl, hc, ht'⟩ := List.map_eq_cons_iff.mp hst.symm
  rw [(toLower_eq_iff he).mpr rfl, toLower_eq_iff he] at hc
  exact ⟨t', hc ▸ rfl, ht'.symm⟩

/-- The case of letters does not matter for a numeral. -/
theorem Numeral.of_map_toLower {t : List Char} (hst : s.map Char.toLower = t.map Char.toLower)
    (hs : Numeral base s i) : Numeral base t i := by
  cases hs with
  | plain hs => exact .plain (hs.of_map_toLower hst)
  | plus hs =>
      obtain ⟨t, rfl, hrest⟩ := eq_cons_of_map_toLower (by decide) hst
      exact .plus (hs.of_map_toLower hrest)
  | minus hs =>
      obtain ⟨t, rfl, hrest⟩ := eq_cons_of_map_toLower (by decide) hst
      exact .minus (hs.of_map_toLower hrest)

/-- A zero in front of digits does not matter. -/
theorem denotes_zero_cons (hbase : 0 < base) (hs : s ≠ []) :
    Denotes base ('0' :: s) n ↔ Denotes base s n := by
  have hzero : IsDigit base '0' 0 := ⟨hbase, rfl⟩
  constructor
  · rintro ⟨-, _, hall, rfl⟩
    obtain ⟨d, ds, ⟨-, hd⟩, hds, rfl⟩ := List.forall₂_cons_left_iff.mp hall
    have hvalue : d = 0 := by
      have hlt : d < digits.length := (List.getElem?_eq_some_iff.mp hd).1
      have hdigits : ∀ d < digits.length, digits[d]? = some '0' → d = 0 := by decide
      exact hdigits d hlt hd
    exact ⟨hs, ds, hds, by rw [ofDigits_reverse_cons, hvalue, Nat.zero_mul, Nat.zero_add]⟩
  · rintro ⟨-, ds, hds, rfl⟩
    refine ⟨List.cons_ne_nil _ _, 0 :: ds, .cons hzero hds, ?_⟩
    rw [ofDigits_reverse_cons, Nat.zero_mul, Nat.zero_add]

theorem numeral_iff_of_not_sign (hs : ∀ c, s.head? = some c → c ≠ '+' ∧ c ≠ '-') :
    Numeral base s i ↔ ∃ n : Nat, i = n ∧ Denotes base s n := by
  rw [numeral_iff_of_not_minus fun h => (hs _ h).2 rfl]
  refine exists_congr fun n => and_congr_right fun _ => ⟨?_, Or.inl⟩
  rintro (hdigits | ⟨t, rfl, -⟩)
  · exact hdigits
  · exact absurd rfl (hs '+' rfl).1

theorem numeral_plus_iff : Numeral base ('+' :: s) i ↔ ∃ n : Nat, i = n ∧ Denotes base s n := by
  rw [numeral_iff_of_not_minus (by simp)]
  refine exists_congr fun n => and_congr_right fun _ => ⟨?_, fun hs => Or.inr ⟨s, rfl, hs⟩⟩
  rintro (hdigits | ⟨t, ht, hdigits⟩)
  · exact absurd hdigits (not_denotes_sign (Or.inl rfl))
  · exact (List.cons.inj ht).2 ▸ hdigits

/-- A zero between the sign and the digits does not matter. -/
theorem numeral_append_zero {sign : List Char} (hsign : sign ∈ [[], ['+'], ['-']])
    (hs : Denotes base s n) :
    Numeral base (sign ++ '0' :: s) i ↔ Numeral base (sign ++ s) i := by
  have hbase : 0 < base := by
    obtain ⟨hne, ds, hds, -⟩ := hs
    obtain ⟨c, s, rfl⟩ := List.exists_cons_of_ne_nil hne
    obtain ⟨d, ds, hd, -, -⟩ := List.forall₂_cons_left_iff.mp hds
    exact Nat.zero_lt_of_lt hd.1
  have hhead : ∀ c, s.head? = some c → c ≠ '+' ∧ c ≠ '-' := fun c hc => by
    obtain ⟨t, rfl⟩ := List.head?_eq_some_iff.mp hc
    exact ⟨fun h => not_denotes_sign (Or.inl h) hs, fun h => not_denotes_sign (Or.inr h) hs⟩
  have hzero : ∀ n, Denotes base ('0' :: s) n ↔ Denotes base s n := fun _ =>
    denotes_zero_cons hbase hs.1
  simp only [List.mem_cons, List.not_mem_nil, or_false] at hsign
  rcases hsign with rfl | rfl | rfl
  · rw [List.nil_append, List.nil_append, numeral_iff_of_not_sign (by simp),
      numeral_iff_of_not_sign hhead]
    simp only [hzero]
  · simp only [List.singleton_append, numeral_plus_iff, hzero]
  · simp only [List.singleton_append, numeral_minus_iff, hzero]

/-- Numerals of the same value are read alike. -/
theorem signedWord?_congr {t : List Char} (hbase : base ≤ 16)
    (hst : ∀ i, Numeral base s i ↔ Numeral base t i) :
    signedWord? base s = signedWord? base t := by
  refine Option.ext fun w => ?_
  rw [signedWord?_eq_some_iff hbase, signedWord?_eq_some_iff hbase, hst]

/-- No digit is a blank. -/
theorem IsDigit.not_blank (hc : IsDigit base c d) : isBlank c = false := by
  have hdigits : digits.all (!isBlank ·) = true := by decide
  rw [← isBlank_toLower]
  simpa using List.all_eq_true.mp hdigits _ (List.mem_of_getElem? hc.2)

theorem Denotes.not_blank (hs : Denotes base s n) : ∀ c ∈ s, isBlank c = false := by
  obtain ⟨-, ds, hds, -⟩ := hs
  induction hds with
  | nil => simp
  | cons hd _ ih => exact List.forall_mem_cons.mpr ⟨hd.not_blank, ih⟩

end WordMachine.Text
