import Mathlib.Logic.Function.Basic
import WordMachine.Proofs.Reassembly

/-!
# Listings lose nothing

Programs with the same listing have the same words (`Program.listing_eq_iff`), whatever these are:
indices without registers, distances out of the code, words that are no opcodes.

A line is read from the left.  Up to its first space stands the mnemonic, so the operation is known,
and with it the form of what follows.  There each operand is again followed by a character that it
does not contain, or by nothing (`append_inj_of_stop`), and the text of an operand stands for one
word only.  A call shows either the position that it leads to or, if it leads to none, the word
itself, and the two differ in the character behind the space.
-/

namespace WordMachine

namespace Text

/-! ## Numerals -/

theorem toDigits_ten_injective : Function.Injective (Nat.toDigits 10) := fun m n hsame =>
  calc m = Nat.ofDigitChars 10 (Nat.toDigits 10 m) 0 := Nat.ofDigitChars_ten_toDigits.symm
    _ = Nat.ofDigitChars 10 (Nat.toDigits 10 n) 0 := by rw [hsame]
    _ = n := Nat.ofDigitChars_ten_toDigits

theorem toString_nat_injective {m n : Nat} (hsame : toString m = toString n) : m = n := by
  have hlist := congrArg String.toList hsame
  exact toDigits_ten_injective (Nat.toList_repr.symm.trans (hlist.trans Nat.toList_repr))

/-- Leading zeros do not change what is read. -/
theorem magnitude_leftpad {bound : Nat} (hbound : 0 < bound) (width : Nat) (s : List Char) :
    magnitude 16 bound 0 (s.leftpad width '0') = magnitude 16 bound 0 s := by
  have hzero : digitValue? 16 '0' = some 0 := rfl
  rw [List.leftpad]
  induction width - s.length with
  | zero => rfl
  | succ n ih =>
      rw [List.replicate_succ, List.cons_append, magnitude, hzero]
      simp only [Nat.zero_mul, Nat.add_zero, if_pos hbound]
      exact ih

theorem hexPadded_injective (width : Nat) : Function.Injective (hexPadded width) := by
  intro m n hsame
  have hread : ∀ k < m + n + 1, magnitude 16 (m + n + 1) 0 (hexPadded width k).toList = .ok k := by
    intro k hk
    rw [hexPadded, padLeft, String.toList_ofList, magnitude_leftpad (Nat.succ_pos _), hex,
      String.toList_ofList, magnitude_toDigits_hex hk]
  have hm := hread m (by omega)
  rw [hsame, hread n (by omega)] at hm
  exact (Except.ok.inj hm).symm

theorem toList_decimal (i : Int) : (decimal i).toList =
    if 0 ≤ i then Nat.toDigits 10 i.toNat else '-' :: Nat.toDigits 10 (-i).toNat := by
  rw [decimal, Int.toString_eq_repr, Int.repr_eq_if]
  split
  · exact Nat.toList_repr
  · rw [String.toList_append, Nat.toList_repr]
    rfl

/-- The text of a number consists of digits and the minus sign. -/
theorem notMem_decimal {c : Char} (hminus : c ≠ '-') (hdigits : ∀ d < 10, c ≠ Nat.digitChar d)
    (i : Int) : c ∉ (decimal i).toList := by
  have hnumber : ∀ n, c ∉ Nat.toDigits 10 n := fun n => notMem_toDigits (by decide) hdigits
  rw [toList_decimal]
  split
  · exact hnumber _
  · exact List.not_mem_cons_of_ne_of_not_mem hminus (hnumber _)

/-- Only a negative number begins with a minus sign. -/
theorem not_minus_toDigits_ten {n : Nat} {s : List Char} : Nat.toDigits 10 n ≠ '-' :: s := by
  intro hsame
  have hmem : '-' ∈ Nat.toDigits 10 n := hsame ▸ List.mem_cons_self ..
  exact notMem_toDigits (by decide) (by decide) hmem

theorem decimal_injective : Function.Injective decimal := by
  intro i j hsame
  have hlist := congrArg String.toList hsame
  rw [toList_decimal, toList_decimal] at hlist
  split at hlist <;> split at hlist
  · have := toDigits_ten_injective hlist
    omega
  · exact absurd hlist not_minus_toDigits_ten
  · exact absurd hlist.symm not_minus_toDigits_ten
  · have := toDigits_ten_injective (List.cons.inj hlist).2
    omega

theorem decimalSigned_injective : Function.Injective decimalSigned := by
  have hplus : ∀ i j, "+" ++ decimal i ≠ decimal j := fun i j hsame => by
    have hmem : '+' ∈ (decimal j).toList := by
      rw [← hsame, String.toList_append]
      exact List.mem_cons_self ..
    exact notMem_decimal (by decide) (by decide) j hmem
  intro i j hsame
  unfold decimalSigned at hsame
  split at hsame <;> split at hsame
  · exact decimal_injective ((String.append_right_inj _).mp hsame)
  · exact absurd hsame (hplus i j)
  · exact absurd hsame.symm (hplus j i)
  · exact decimal_injective hsame

/-! ## Where a text stops -/

/-- A text that ends at once or begins with a character. -/
def StopsAt (c : Char) (s : List Char) : Prop := s = [] ∨ s.head? = some c

theorem takeWhile_append_of_stop {c : Char} {s t : List Char} (hs : c ∉ s) (ht : StopsAt c t) :
    (s ++ t).takeWhile (· != c) = s := by
  have hbefore : ∀ d ∈ s, (d != c) = true := fun d hd => bne_iff_ne.mpr (ne_of_mem_of_not_mem hd hs)
  rw [List.takeWhile_append_of_pos hbefore]
  rcases ht with rfl | hhead
  · rw [List.takeWhile_nil, List.append_nil]
  · obtain ⟨rest, rfl⟩ := List.head?_eq_some_iff.mp hhead
    rw [List.takeWhile_cons_of_neg (by simp), List.append_nil]

/-- A text that is followed by a character that it does not contain, or by nothing, is cut off from
what follows. -/
theorem append_inj_of_stop {c : Char} {s s' t t' : List Char} (hs : c ∉ s) (hs' : c ∉ s')
    (ht : StopsAt c t) (ht' : StopsAt c t') (hsame : s ++ t = s' ++ t') : s = s' ∧ t = t' := by
  have hcut := congrArg (List.takeWhile (· != c)) hsame
  rw [takeWhile_append_of_stop hs ht, takeWhile_append_of_stop hs' ht'] at hcut
  obtain rfl := hcut
  exact ⟨rfl, List.append_cancel_left hsame⟩

theorem head?_append {c : Char} {s : String} (hs : s.toList.head? = some c) (t : String) :
    (s ++ t).toList.head? = some c := by
  rw [String.toList_append, List.head?_append, hs, Option.some_or]

/-- The same for texts between which a given text stands. -/
theorem append_inj_of_separator {c : Char} {s s' t t' sep : String}
    (hsep : sep.toList.head? = some c) (hs : c ∉ s.toList) (hs' : c ∉ s'.toList)
    (hsame : s ++ sep ++ t = s' ++ sep ++ t') : s = s' ∧ t = t' := by
  have hlist := congrArg String.toList hsame
  rw [String.append_assoc, String.append_assoc, @String.toList_append s,
    @String.toList_append s'] at hlist
  have hstop : ∀ u : String, StopsAt c (sep ++ u).toList := fun u => Or.inr (head?_append hsep u)
  obtain ⟨hfirst, hrest⟩ := append_inj_of_stop hs hs' (hstop t) (hstop t') hlist
  exact ⟨String.toList_inj.mp hfirst,
    (String.append_right_inj _).mp (String.toList_inj.mp hrest)⟩

end Text

open Text

/-! ## The texts of operands -/

theorem Word.eq_of_toNat_bits {v w : Word} (hsame : (bits v).toNat = (bits w).toNat) : v = w := by
  rw [← ofBits_bits v, UInt32.toNat_inj.mp hsame, ofBits_bits]

theorem wordText_injective : Function.Injective wordText := by
  intro v w hsame
  have hv := Assembly.literal?_wordText v
  rw [hsame, Assembly.literal?_wordText w] at hv
  exact (Option.some.inj hv).symm

theorem Register.name_ne_unknown (r : Register) (s : String) : r.name ≠ "r?" ++ s := by
  intro hsame
  have hsecond := congrArg (fun t => t.toList[1]?) hsame
  simp only [String.toList_append] at hsecond
  cases r <;> exact absurd (Option.some.inj hsecond) (by decide)

theorem Register.name_injective : Function.Injective name := by
  intro r q hsame
  cases r <;> cases q <;> first | rfl | exact absurd hsame (by decide)

theorem registerText_injective : Function.Injective registerText := by
  intro v w hsame
  cases hv : Register.ofIndex? v with
  | none =>
      cases hw : Register.ofIndex? w with
      | none =>
          simp only [registerText, hv, hw] at hsame
          exact Int32.toInt_inj.mp (decimal_injective ((String.append_right_inj _).mp hsame))
      | some q =>
          simp only [registerText, hv, hw] at hsame
          exact absurd hsame.symm (q.name_ne_unknown _)
  | some r =>
      cases hw : Register.ofIndex? w with
      | none =>
          simp only [registerText, hv, hw] at hsame
          exact absurd hsame (r.name_ne_unknown _)
      | some q =>
          simp only [registerText, hv, hw] at hsame
          rw [Register.ofIndex?_eq_some_iff.mp hv, Register.ofIndex?_eq_some_iff.mp hw,
            Register.name_injective hsame]

theorem comma_notMem_registerText (w : Word) : ',' ∉ (" " ++ registerText w).toList := by
  rw [String.toList_append, List.mem_append, not_or]
  refine ⟨by decide, ?_⟩
  unfold registerText
  split
  · next r hr => cases r <;> decide
  · rw [String.toList_append, List.mem_append, not_or]
    exact ⟨by decide, notMem_decimal (by decide) (by decide) _⟩

/-- The text of a word consists of digits and the mark of their base. -/
theorem notMem_wordText {c : Char} (hmark : c ≠ 'x') (hdigits : ∀ d < 16, c ≠ Nat.digitChar d)
    (w : Word) : c ∉ (wordText w).toList := by
  rw [Assembly.toList_wordText]
  exact List.not_mem_cons_of_ne_of_not_mem (hdigits 0 (by decide))
    (List.not_mem_cons_of_ne_of_not_mem hmark (notMem_toDigits (by decide) hdigits))

theorem bracket_notMem_wordText (w : Word) : ']' ∉ (" [" ++ wordText w).toList := by
  rw [String.toList_append, List.mem_append, not_or]
  exact ⟨by decide, notMem_wordText (by decide) (by decide) w⟩

theorem space_notMem_decimalSigned (i : Int) : ' ' ∉ (decimalSigned i).toList := by
  have hnumber : ' ' ∉ (decimal i).toList := notMem_decimal (by decide) (by decide) i
  unfold decimalSigned
  split
  · rw [String.toList_append, List.mem_append, not_or]
    exact ⟨by decide, hnumber⟩
  · exact hnumber

/-! ## The texts of instructions -/

namespace Instruction

variable {d e : Instruction}

/-- The arrow of a jump or a call, or what stands in its place. -/
theorem stopsAt_getD_arrowText {s : String} (hs : StopsAt ' ' s.toList) (d : Instruction) :
    StopsAt ' ' (d.arrowText.getD s).toList := by
  unfold arrowText
  cases d.target? with
  | none => exact hs
  | some t => exact Or.inr (head?_append rfl _)

/-- What stands behind the mnemonic begins with a space. -/
theorem exists_text (d : Instruction) :
    ∃ rest, d.text.toList = d.op.mnemonic.toList ++ rest ∧ StopsAt ' ' rest := by
  have hspace : " ".toList.head? = some ' ' := rfl
  refine ⟨_, String.toList_append, ?_⟩
  cases d.op.form with
  | bare => exact Or.inl rfl
  | register | value => exact Or.inr (head?_append hspace _)
  | registerValue | registerPair =>
      exact Or.inr (head?_append (head?_append (head?_append hspace _) _) _)
  | addressValue => exact Or.inr (head?_append (head?_append (head?_append rfl _) _) _)
  | marker => exact Or.inr (head?_append rfl _)
  | relative => exact Or.inr (head?_append (head?_append hspace _) _)
  | absolute => exact stopsAt_getD_arrowText (Or.inr (head?_append hspace _)) d

theorem space_notMem_mnemonic (op : Op) : ' ' ∉ op.mnemonic.toList := by
  have hall : (Op.all.all fun op => !op.mnemonic.toList.contains ' ') = true := by
    decide +kernel
  simpa using List.all_eq_true.mp hall op op.mem_all

/-- The text of an instruction begins with its operation. -/
theorem op_eq_of_text_eq (hsame : d.text = e.text) : d.op = e.op := by
  obtain ⟨rest, hd, hstop⟩ := d.exists_text
  obtain ⟨rest', he, hstop'⟩ := e.exists_text
  rw [hsame, he] at hd
  have hmnemonic := (append_inj_of_stop (space_notMem_mnemonic _) (space_notMem_mnemonic _)
    hstop' hstop hd).1
  have hop := Op.ofMnemonic?_mnemonic e.op
  rw [String.toList_inj.mp hmnemonic, Op.ofMnemonic?_mnemonic] at hop
  exact Option.some.inj hop

theorem target?_of_absolute (hform : d.op.form = .absolute) :
    d.target? = if 0 ≤ d.first.toInt + 1 then some (d.first.toInt + 1).toNat else none := by
  simp [target?, destination, Op.refersToLabel, hform]

/-- An arrow is not taken for a word. -/
theorem arrow_ne_wordText (t : Nat) (w : Word) : " -> " ++ toString t ≠ " " ++ wordText w := by
  intro hsame
  have hsecond := congrArg (fun s => s.toList[1]?) hsame
  simp only [String.toList_append, Assembly.toList_wordText] at hsecond
  exact absurd (Option.some.inj hsecond) (by decide)

/-- A call shows its operand, either as a position or as a word. -/
theorem first_eq_of_absolute (hd : d.op.form = .absolute) (he : e.op.form = .absolute)
    (hsame : d.arrowText.getD (" " ++ wordText d.first) =
      e.arrowText.getD (" " ++ wordText e.first)) : d.first = e.first := by
  simp only [arrowText, target?_of_absolute hd, target?_of_absolute he] at hsame
  split at hsame <;> split at hsame
  · have := toString_nat_injective ((String.append_right_inj _).mp hsame)
    exact Int32.toInt_inj.mp (by omega)
  · exact absurd hsame (arrow_ne_wordText _ _)
  · exact absurd hsame.symm (arrow_ne_wordText _ _)
  · exact wordText_injective ((String.append_right_inj _).mp hsame)

/-- A jump shows its operand in front of where it leads to. -/
theorem first_eq_of_relative (hsame : " " ++ decimalSigned d.first.toInt ++ d.arrowText.getD "" =
    " " ++ decimalSigned e.first.toInt ++ e.arrowText.getD "") : d.first = e.first := by
  rw [String.append_assoc, String.append_assoc, String.append_right_inj] at hsame
  have hlist := congrArg String.toList hsame
  rw [String.toList_append, String.toList_append] at hlist
  obtain ⟨hfirst, -⟩ := append_inj_of_stop (space_notMem_decimalSigned _)
    (space_notMem_decimalSigned _) (stopsAt_getD_arrowText (Or.inl rfl) d)
    (stopsAt_getD_arrowText (Or.inl rfl) e) hlist
  exact Int32.toInt_inj.mp (decimalSigned_injective (String.toList_inj.mp hfirst))

theorem words_of_operandCount_one (hcount : d.op.operandCount = 1) :
    d.words = [d.op.opcode, d.first] := by
  rw [words, hcount]
  rfl

theorem words_of_operandCount_two (hcount : d.op.operandCount = 2) :
    d.words = [d.op.opcode, d.first, d.second] := by
  rw [words, hcount]
  rfl

/-- Instructions with the same text have the same words, wherever they stand. -/
theorem words_eq_of_text_eq (hsame : d.text = e.text) : d.words = e.words := by
  have hop := op_eq_of_text_eq hsame
  have hcount : d.op.operandCount = e.op.form.operandCount := congrArg Op.operandCount hop
  have hone : d.op.operandCount = 1 → d.first = e.first → d.words = e.words := fun h hfirst => by
    rw [words_of_operandCount_one h, words_of_operandCount_one (hop ▸ h), hop, hfirst]
  have htwo : d.op.operandCount = 2 → d.first = e.first → d.second = e.second →
      d.words = e.words := fun h hfirst hsecond => by
    rw [words_of_operandCount_two h, words_of_operandCount_two (hop ▸ h), hop, hfirst, hsecond]
  have hoperands := hsame
  rw [text, text, hop, String.append_right_inj] at hoperands
  cases hform : e.op.form with simp only [hform] at hoperands hcount
  | bare =>
      rw [words, words, hcount, ← hop, hcount]
      rfl
  | register =>
      exact hone hcount (registerText_injective ((String.append_right_inj _).mp hoperands))
  | registerValue =>
      obtain ⟨hfirst, hsecond⟩ := append_inj_of_separator rfl (comma_notMem_registerText _)
        (comma_notMem_registerText _) hoperands
      exact htwo hcount (registerText_injective ((String.append_right_inj _).mp hfirst))
        (wordText_injective hsecond)
  | registerPair =>
      obtain ⟨hfirst, hsecond⟩ := append_inj_of_separator rfl (comma_notMem_registerText _)
        (comma_notMem_registerText _) hoperands
      exact htwo hcount (registerText_injective ((String.append_right_inj _).mp hfirst))
        (registerText_injective hsecond)
  | addressValue =>
      obtain ⟨hfirst, hsecond⟩ := append_inj_of_separator rfl (bracket_notMem_wordText _)
        (bracket_notMem_wordText _) hoperands
      exact htwo hcount (wordText_injective ((String.append_right_inj _).mp hfirst))
        (wordText_injective hsecond)
  | value => exact hone hcount (wordText_injective ((String.append_right_inj _).mp hoperands))
  | marker =>
      have hbits := hexPadded_injective 8 ((String.append_right_inj _).mp hoperands)
      exact hone hcount (Word.eq_of_toNat_bits hbits)
  | relative => exact hone hcount (first_eq_of_relative hoperands)
  | absolute => exact hone hcount (first_eq_of_absolute (hop ▸ hform) hform hoperands)

end Instruction

/-! ## Listings -/

/-- Lines with the same text show the same words. -/
theorem Item.words_eq_of_text_eq {x y : Item} (hsame : x.text = y.text) : x.words = y.words := by
  cases x with
  | instruction d =>
      cases y with
      | instruction e => exact Instruction.words_eq_of_text_eq hsame
      | stray i w =>
          have hshows := showsWord_stray i w
          rw [← hsame] at hshows
          exact absurd hshows (not_showsWord_instruction d)
  | stray i v =>
      cases y with
      | instruction e =>
          have hshows := showsWord_stray i v
          rw [hsame] at hshows
          exact absurd hshows (not_showsWord_instruction e)
      | stray j w =>
          have hword := wordText_injective ((String.append_right_inj _).mp hsame)
          rw [words, words, hword]

/-- The words of a program are told by its listing, line by line. -/
theorem Program.exists_words_of_listing :
    ∃ shown : Nat × String → List Word,
      ∀ p : Program, p.words.toList = p.listing.flatMap shown := by
  have hfactors : Item.words.FactorsThrough fun x => (x.position, x.text) := fun x y hsame =>
    Item.words_eq_of_text_eq (congrArg Prod.snd hsame)
  obtain ⟨shown, hshown⟩ := (Function.factorsThrough_iff _).mp hfactors
  refine ⟨shown, fun p => ?_⟩
  calc p.words.toList = p.items.flatMap Item.words := (flatMap_words_itemsFrom p.words 0).symm
    _ = p.items.flatMap (shown ∘ fun x => (x.position, x.text)) := by rw [← hshown]
    _ = p.listing.flatMap shown := by rw [Program.listing, List.flatMap_map]; rfl

/-- Programs have the same listing exactly if they have the same words. -/
theorem Program.listing_eq_iff {p q : Program} : p.listing = q.listing ↔ p.words = q.words := by
  constructor
  · intro hsame
    obtain ⟨shown, hshown⟩ := exists_words_of_listing
    exact Array.toList_inj.mp (by rw [hshown, hshown, hsame])
  · intro hsame
    rw [listing, listing, items, items, hsame]

end WordMachine
