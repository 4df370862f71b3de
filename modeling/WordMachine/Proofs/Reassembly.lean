import Mathlib.Data.List.TakeWhile
import WordMachine.Proofs.LinearReadings
import WordMachine.Proofs.Lines
import WordMachine.Proofs.Persistence
import WordMachine.Proofs.Stores

/-!
# Listings that can be assembled again

The text of an instruction is made to be read by people, but as long as it shows registers and plain
values only (`Instruction.Legible`), the assembler reads it as the words it was made from.  It does
not matter which names the assembler knows: literals and registers come before constants and
variables, so a constant with the name of a register is out of reach, and so is one that is spelled
like a number.

The proof goes along a line.  `spread` is how operands stand behind a mnemonic; a line that is built
with it has the expected tokens and is neither cut, nor trimmed, nor taken for a label or a directive
(`readLine_append_spread`).  What remains is that the text of an operand is read as the operand.

Labels, jumps and calls are not legible, for a listing shows the ids and distances that names have
been made into, and neither are stores to an address in the code, which is shown in brackets.
-/

namespace WordMachine

/-! ## Lines and tokens -/

namespace Text

theorem linesFrom_append {l : List Char} (hl : '\n' ∉ l) (rev rest : List Char) :
    linesFrom rev (l ++ rest) = linesFrom (l.reverse ++ rev) rest := by
  induction l generalizing rev with
  | nil => rfl
  | cons c l ih =>
      rw [List.mem_cons, not_or] at hl
      rw [List.cons_append, linesFrom, if_neg (Ne.symm hl.1), ih hl.2]
      simp

theorem endLine_reverse {l : List Char} (hl : l.getLast? ≠ some '\r') :
    endLine l.reverse = l := by
  unfold endLine
  split
  · next rest hrev =>
    refine absurd ?_ hl
    rw [← List.head?_reverse, hrev]
    rfl
  · exact List.reverse_reverse l

/-- Lines that are joined by line feeds are the lines of the text. -/
theorem lines_intercalate {ls : List (List Char)}
    (hls : ∀ l ∈ ls, l ≠ [] ∧ '\n' ∉ l ∧ l.getLast? ≠ some '\r') :
    lines (['\n'].intercalate ls) = ls := by
  unfold lines
  induction ls with
  | nil => rfl
  | cons l ls ih =>
      obtain ⟨hne, hfeed, hreturn⟩ := hls l (List.mem_cons_self ..)
      cases ls with
      | nil =>
          have hjoined : ['\n'].intercalate [l] = l ++ [] := by simp
          rw [hjoined, linesFrom_append hfeed, linesFrom, List.append_nil,
            if_neg (by simpa using hne), List.reverse_reverse]
      | cons l' ls =>
          have hrest := ih fun k hk => hls k (List.mem_cons_of_mem _ hk)
          rw [List.intercalate_cons_cons, List.append_assoc, linesFrom_append hfeed,
            List.append_nil, List.singleton_append, linesFrom, if_pos rfl,
            endLine_reverse hreturn, hrest]

variable {sep : Char → Bool} {s : List Char} {c : Char}

theorem tokens_cons_of_sep (hc : sep c = true) (rest : List Char) :
    tokens sep (c :: rest) = tokens sep rest := by
  rw [tokens, pieces, if_pos hc, List.filter_cons_of_neg (by simp)]
  rfl

theorem tokens_of_not_sep (hne : s ≠ []) (hs : ∀ d ∈ s, sep d = false) : tokens sep s = [s] := by
  rw [tokens, pieces_of_not_sep hs, List.filter_cons_of_pos (by simpa using hne), List.filter_nil]

/-- Up to its first separator a text is one token, if it is not empty. -/
theorem tokens_append_cons (hne : s ≠ []) (hs : ∀ d ∈ s, sep d = false) (hc : sep c = true)
    (rest : List Char) : tokens sep (s ++ c :: rest) = s :: tokens sep rest := by
  rw [tokens, pieces_append_cons rest hs hc, List.filter_cons_of_pos (by simpa using hne)]
  rfl

end Text

namespace Assembly

open Text

/-! ## Instruction lines -/

/-- A text that can stand anywhere in an instruction line: none of its characters separates tokens,
starts a comment or ends a label. -/
def IsToken (s : List Char) : Prop :=
  s ≠ [] ∧ ∀ c ∈ s, isTokenEnd c = false ∧ c ≠ '#' ∧ c ≠ ':'

instance (s : List Char) : Decidable (IsToken s) :=
  -- the characters of the text are to be tried, and not all there are
  have : Decidable (∀ c ∈ s, isTokenEnd c = false ∧ c ≠ '#' ∧ c ≠ ':') := List.decidableBAll _ s
  inferInstanceAs (Decidable (_ ∧ _))

/-- Operands as they stand behind a mnemonic: a space before each of them and a comma between two. -/
def spread : List (List Char) → List Char
  | [] => []
  | [s] => ' ' :: s
  | s :: rest => ' ' :: (s ++ ',' :: spread rest)

variable {t : Symbols} {m : List Char} {ss : List (List Char)} {c : Char}

theorem IsToken.not_tokenEnd {s : List Char} (hs : IsToken s) : ∀ c ∈ s, isTokenEnd c = false :=
  fun c hc => (hs.2 c hc).1

theorem spread_eq_nil_or (ss : List (List Char)) :
    ss = [] ∧ spread ss = [] ∨ ∃ rest, spread ss = ' ' :: rest := by
  fun_cases spread ss with
  | case1 => exact Or.inl ⟨rfl, rfl⟩
  | case2 s => exact Or.inr ⟨_, rfl⟩
  | case3 s rest hrest => exact Or.inr ⟨_, rfl⟩

theorem mem_spread (hc : c ∈ spread ss) : c = ' ' ∨ c = ',' ∨ ∃ s ∈ ss, c ∈ s := by
  fun_induction spread ss with
  | case1 => cases hc
  | case2 s =>
      rcases List.mem_cons.mp hc with rfl | hc
      · exact Or.inl rfl
      · exact Or.inr (Or.inr ⟨s, List.mem_cons_self .., hc⟩)
  | case3 s rest hrest ih =>
      rcases List.mem_cons.mp hc with rfl | hc
      · exact Or.inl rfl
      rcases List.mem_append.mp hc with hc | hc
      · exact Or.inr (Or.inr ⟨s, List.mem_cons_self .., hc⟩)
      rcases List.mem_cons.mp hc with rfl | hc
      · exact Or.inr (Or.inl rfl)
      rcases ih hc with h | h | ⟨s', hs', hc'⟩
      · exact Or.inl h
      · exact Or.inr (Or.inl h)
      · exact Or.inr (Or.inr ⟨s', List.mem_cons_of_mem _ hs', hc'⟩)

theorem mem_append_spread (hc : c ∈ m ++ spread ss) :
    c = ' ' ∨ c = ',' ∨ ∃ s ∈ m :: ss, c ∈ s := by
  rcases List.mem_append.mp hc with hc | hc
  · exact Or.inr (Or.inr ⟨m, List.mem_cons_self .., hc⟩)
  · rcases mem_spread hc with h | h | ⟨s, hs, hc⟩
    · exact Or.inl h
    · exact Or.inr (Or.inl h)
    · exact Or.inr (Or.inr ⟨s, List.mem_cons_of_mem _ hs, hc⟩)

theorem tokens_spread (hss : ∀ s ∈ ss, IsToken s) : tokens isTokenEnd (spread ss) = ss := by
  fun_induction spread ss with
  | case1 => rfl
  | case2 s =>
      have hs := hss s (List.mem_cons_self ..)
      rw [tokens_cons_of_sep (by decide), tokens_of_not_sep hs.1 hs.not_tokenEnd]
  | case3 s rest hrest ih =>
      have hs := hss s (List.mem_cons_self ..)
      rw [tokens_cons_of_sep (by decide), tokens_append_cons hs.1 hs.not_tokenEnd (by decide),
        ih fun s' hs' => hss s' (List.mem_cons_of_mem _ hs')]

/-- The tokens of an instruction line are its mnemonic and its operands. -/
theorem tokens_append_spread (hm : IsToken m) (hss : ∀ s ∈ ss, IsToken s) :
    tokens isTokenEnd (m ++ spread ss) = m :: ss := by
  rcases spread_eq_nil_or ss with ⟨rfl, hnil⟩ | ⟨rest, hspace⟩
  · rw [hnil, List.append_nil, tokens_of_not_sep hm.1 hm.not_tokenEnd]
  · have hoperands := tokens_spread hss
    rw [hspace, tokens_cons_of_sep (by decide)] at hoperands
    rw [hspace, tokens_append_cons hm.1 hm.not_tokenEnd (by decide), hoperands]

theorem mem_of_getLast?_spread (hss : ∀ s ∈ ss, IsToken s)
    (hlast : (spread ss).getLast? = some c) : ∃ s ∈ ss, c ∈ s := by
  fun_induction spread ss with
  | case1 => cases hlast
  | case2 s =>
      obtain ⟨d, rest, rfl⟩ := List.exists_cons_of_ne_nil (hss s (List.mem_cons_self ..)).1
      rw [List.getLast?_cons_cons] at hlast
      exact ⟨d :: rest, List.mem_cons_self .., List.mem_of_getLast? hlast⟩
  | case3 s rest hrest ih =>
      obtain ⟨more, hmore⟩ := (spread_eq_nil_or rest).resolve_left fun h => hrest h.1
      have hsplit : ' ' :: (s ++ ',' :: spread rest) = (' ' :: s ++ [',']) ++ spread rest := by simp
      have hbehind : (spread rest).getLast? = some c := by
        rw [hsplit, List.getLast?_append_of_ne_nil _ (by simp [hmore])] at hlast
        exact hlast
      obtain ⟨s', hs', hc⟩ := ih (fun s' hs' => hss s' (List.mem_cons_of_mem _ hs')) hbehind
      exact ⟨s', List.mem_cons_of_mem _ hs', hc⟩

/-- An instruction line ends with the last character of a token. -/
theorem mem_of_getLast?_append_spread (hss : ∀ s ∈ ss, IsToken s)
    (hlast : (m ++ spread ss).getLast? = some c) : ∃ s ∈ m :: ss, c ∈ s := by
  rw [List.getLast?_append] at hlast
  cases hspread : (spread ss).getLast? with
  | none =>
      rw [hspread, Option.none_or] at hlast
      exact ⟨m, List.mem_cons_self .., List.mem_of_getLast? hlast⟩
  | some d =>
      rw [hspread, Option.some_or] at hlast
      cases hlast
      obtain ⟨s, hs, hc⟩ := mem_of_getLast?_spread hss hspread
      exact ⟨s, List.mem_cons_of_mem _ hs, hc⟩

theorem isBlank_eq_false (hc : isTokenEnd c = false) : isBlank c = false :=
  (Bool.or_eq_false_iff.mp hc).1

theorem last_append_spread (hss : ∀ s ∈ m :: ss, IsToken s)
    (hlast : (m ++ spread ss).getLast? = some c) : isTokenEnd c = false ∧ c ≠ ':' := by
  obtain ⟨s, hs, hmem⟩ :=
    mem_of_getLast?_append_spread (fun s hs => hss s (List.mem_cons_of_mem _ hs)) hlast
  exact ⟨((hss s hs).2 c hmem).1, ((hss s hs).2 c hmem).2.2⟩

theorem stripComment_append_spread (hss : ∀ s ∈ m :: ss, IsToken s) :
    stripComment (m ++ spread ss) = m ++ spread ss := by
  apply List.takeWhile_eq_self_iff.mpr
  intro c hc
  rcases mem_append_spread hc with rfl | rfl | ⟨s, hs, hmem⟩
  · decide
  · decide
  · exact bne_iff_ne.mpr ((hss s hs).2 c hmem).2.1

theorem trim_append_spread (hss : ∀ s ∈ m :: ss, IsToken s) :
    trim (m ++ spread ss) = m ++ spread ss := by
  have hm := hss m (List.mem_cons_self ..)
  obtain ⟨first, rest, rfl⟩ := List.exists_cons_of_ne_nil hm.1
  apply trim_eq_self
  · intro c hc
    rw [List.cons_append, List.head?_cons, Option.some.injEq] at hc
    exact isBlank_eq_false (hc ▸ hm.not_tokenEnd first (List.mem_cons_self ..))
  · intro c hc
    exact isBlank_eq_false (last_append_spread hss hc).1

theorem markerName?_append_spread (hss : ∀ s ∈ m :: ss, IsToken s) :
    markerName? (m ++ spread ss) = none :=
  if_neg fun hlast => (last_append_spread hss hlast).2 rfl

/-- A line of tokens is read as the instruction that its first token names. -/
theorem readLine_append_spread {op : Op} (hss : ∀ s ∈ m :: ss, IsToken s)
    (hdot : m.head? ≠ some '.') (hop : Op.ofMnemonic? (String.ofList m) = some op) :
    readLine t (m ++ spread ss) =
      readOperands t (m ++ spread ss) op (ss.map String.ofList) := by
  obtain ⟨hm, hoperands⟩ := List.forall_mem_cons.mp hss
  have hread : readInstruction t (m ++ spread ss) =
      readOperands t (m ++ spread ss) op (ss.map String.ofList) := by
    simp only [readInstruction, markerName?_append_spread hss, tokens_append_spread hm hoperands,
      List.map_cons, hop]
  rw [readLine, stripComment_append_spread hss, trim_append_spread hss]
  split
  · next hnil => exact absurd (List.append_eq_nil_iff.mp hnil).1 hm.1
  · next rest heq =>
    -- the line begins like its mnemonic
    have hhead : (m ++ spread ss).head? = m.head? := List.head?_append_of_ne_nil _ hm.1
    rw [heq] at hhead
    exact absurd hhead.symm hdot
  · exact hread

/-! ## The operands of an instruction -/

theorem operand?_registerText (t : Symbols) {w : Word} {r : Register}
    (hr : Register.ofIndex? w = some r) : t.operand? (registerText w) = some w := by
  have hnames : ∀ q : Register, literal? q.name.toList = none ∧ Register.ofName? q.name = some q := by
    have hall : (Register.all.all fun q =>
        literal? q.name.toList == none && Register.ofName? q.name == some q) = true := by
      decide +kernel
    intro q
    simpa using List.all_eq_true.mp hall q q.mem_all
  obtain ⟨hliteral, hname⟩ := hnames r
  rw [Register.ofIndex?_eq_some_iff.mp hr]
  simp only [Symbols.operand?, registerText, Register.ofIndex?_code, hliteral, hname,
    Option.none_or, Option.map_some, Option.some_or]

theorem isToken_registerText {w : Word} {r : Register} (hr : Register.ofIndex? w = some r) :
    IsToken (registerText w).toList := by
  have hnames : (Register.all.all fun q => IsToken q.name.toList) = true := by decide +kernel
  rw [registerText, hr]
  simpa using List.all_eq_true.mp hnames r r.mem_all

theorem toList_wordText (w : Word) :
    (wordText w).toList = '0' :: 'x' :: Nat.toDigits 16 (Word.bits w).toNat := by
  simp [wordText, hexMarked, hex]

theorem isToken_wordText (w : Word) : IsToken (wordText w).toList := by
  have hdigits : ∀ d < 16, isTokenEnd (Nat.digitChar d) = false ∧ Nat.digitChar d ≠ '#' ∧
      Nat.digitChar d ≠ ':' := by decide
  rw [toList_wordText]
  refine ⟨List.cons_ne_nil _ _, fun c hc => ?_⟩
  rcases List.mem_cons.mp hc with rfl | hc
  · decide
  rcases List.mem_cons.mp hc with rfl | hc
  · decide
  obtain ⟨d, hd, rfl⟩ := exists_digitChar_of_mem_toDigits (by decide) hc
  exact hdigits d hd

theorem literal?_wordText (w : Word) : literal? (wordText w).toList = some w := by
  have hplain : ∀ d < 16, Nat.digitChar d ≠ '+' := by decide
  have htrim : trim (wordText w).toList = (wordText w).toList :=
    trim_of_not_blank fun c hc => isBlank_eq_false ((isToken_wordText w).2 c hc).1
  have hdigits : unsigned 16 0x100000000 (Nat.toDigits 16 (Word.bits w).toNat) =
      .ok (Word.bits w).toNat := by
    rw [unsigned_eq_magnitude Nat.toDigits_ne_nil, magnitude_toDigits_hex (Word.bits w).toNat_lt]
    intro c hc
    obtain ⟨d, hd, rfl⟩ := exists_digitChar_of_mem_toDigits (by decide) hc
    exact hplain d hd
  have hvalue : Word.ofBits (UInt32.ofNat (Word.bits w).toNat) = w := by
    rw [UInt32.ofNat_toNat, Word.ofBits_bits]
  rw [literal?, htrim, toList_wordText, hexDigits?]
  simp only [hdigits]
  exact congrArg some hvalue

theorem operand?_wordText (t : Symbols) (w : Word) : t.operand? (wordText w) = some w := by
  rw [Symbols.operand?, literal?_wordText, Option.some_or]

end Assembly

namespace Instruction

/-- An instruction whose text shows all its operands as registers by name and as plain values. -/
def Legible (d : Instruction) : Prop :=
  match d.op.form with
  | .bare | .value => True
  | .register | .registerValue => Register.IsIndex d.first
  | .registerPair => Register.IsIndex d.first ∧ Register.IsIndex d.second
  | .addressValue | .marker | .relative | .absolute => False

/-- The texts of the operands of a legible instruction. -/
def operandTexts (d : Instruction) : List String :=
  match d.op.form with
  | .register => [registerText d.first]
  | .registerValue => [registerText d.first, wordText d.second]
  | .registerPair => [registerText d.first, registerText d.second]
  | .value => [wordText d.first]
  | .bare | .addressValue | .marker | .relative | .absolute => []

namespace Legible

open Assembly

variable {d : Instruction}

theorem toList_text (hd : d.Legible) :
    d.text.toList = d.op.mnemonic.toList ++ spread (d.operandTexts.map String.toList) := by
  unfold Legible at hd
  unfold Instruction.text operandTexts
  cases hform : d.op.form with
  | addressValue | marker | relative | absolute => rw [hform] at hd; cases hd
  | bare => simp [spread]
  | register => simp [spread]
  | registerValue => simp [spread]
  | registerPair => simp [spread]
  | value => simp [spread]

theorem takesLabel_eq_false (hd : d.Legible) : d.op.takesLabel = false := by
  unfold Legible at hd
  unfold Op.takesLabel Op.refersToLabel
  cases hform : d.op.form with
  | addressValue | marker | relative | absolute => rw [hform] at hd; cases hd
  | _ => rfl

/-- The texts of the operands are tokens, and the assembler reads them as the operands, whatever
names it knows. -/
theorem forall₂_operandTexts (hd : d.Legible) (t : Symbols) :
    List.Forall₂ (fun text w => IsToken text.toList ∧ readOperand t text = .ok w) d.operandTexts
      ([d.first, d.second].take d.op.operandCount) := by
  have hregister : ∀ w, Register.IsIndex w →
      IsToken (registerText w).toList ∧ readOperand t (registerText w) = .ok w := by
    intro w hw
    obtain ⟨r, hr⟩ := Register.exists_ofIndex?_iff.mpr hw
    rw [readOperand, operand?_registerText t hr]
    exact ⟨isToken_registerText hr, rfl⟩
  have hvalue : ∀ w, IsToken (wordText w).toList ∧ readOperand t (wordText w) = .ok w := by
    intro w
    rw [readOperand, operand?_wordText t w]
    exact ⟨isToken_wordText w, rfl⟩
  unfold Legible at hd
  unfold operandTexts Op.operandCount
  cases hform : d.op.form with
  | addressValue | marker | relative | absolute => rw [hform] at hd; cases hd
  | bare => exact .nil
  | register =>
      rw [hform] at hd
      exact .cons (hregister _ hd) .nil
  | registerValue =>
      rw [hform] at hd
      exact .cons (hregister _ hd) (.cons (hvalue _) .nil)
  | registerPair =>
      rw [hform] at hd
      exact .cons (hregister _ hd.1) (.cons (hregister _ hd.2) .nil)
  | value => exact .cons (hvalue _) .nil

end Legible

end Instruction

namespace Assembly

open Text

theorem isToken_mnemonic (op : Op) : IsToken op.mnemonic.toList := by
  have hall : (Op.all.all fun op => IsToken op.mnemonic.toList) = true := by decide +kernel
  simpa using List.all_eq_true.mp hall op (Op.mem_all op)

/-- The tokens of the text of a legible instruction. -/
theorem isToken_of_legible {d : Instruction} (hd : d.Legible) :
    ∀ s ∈ d.op.mnemonic.toList :: d.operandTexts.map String.toList, IsToken s := by
  refine List.forall_mem_cons.mpr ⟨isToken_mnemonic _, ?_⟩
  intro s hs
  obtain ⟨text, htext, rfl⟩ := List.mem_map.mp hs
  exact ((List.forall₂_and_left _ _).mp (hd.forall₂_operandTexts {})).1 text htext

/-- The text of a legible instruction is read as its words. -/
theorem readLine_text {d : Instruction} (hd : d.Legible) (t : Symbols) :
    readLine t d.text.toList = .ok (.emit d.words) := by
  obtain ⟨-, hoperands⟩ := (List.forall₂_and_left _ _).mp (hd.forall₂_operandTexts t)
  have hcount : d.operandTexts.length = d.op.operandCount := by
    have hle := d.op.operandCount_le
    rw [hoperands.length_eq, List.length_take, List.length_cons, List.length_singleton]
    omega
  have hdot : d.op.mnemonic.toList.head? ≠ some '.' := by
    obtain ⟨c, rest, hmnemonic, hne⟩ := d.op.exists_mnemonic
    simpa [hmnemonic] using hne
  have hmnemonic : Op.ofMnemonic? (String.ofList d.op.mnemonic.toList) = some d.op := by
    rw [String.ofList_toList, Op.ofMnemonic?_mnemonic]
  have htexts : (d.operandTexts.map String.toList).map String.ofList = d.operandTexts := by
    simp
  rw [hd.toList_text, readLine_append_spread (isToken_of_legible hd) hdot hmnemonic, htexts]
  unfold readOperands
  rw [if_neg (by simp [hd.takesLabel_eq_false]), if_neg (by simp [hcount]),
    mapM_of_forall₂ hoperands]
  rfl

theorem feed_text {d : Instruction} (hd : d.Legible) (a : Assembler) :
    a.feed d.text.toList = { a with words := a.words ++ d.words, line := a.line + 1 } :=
  Assembler.feed_of_ok (readLine_text hd a.symbols)

/-- The texts of some instructions, fed one after the other, add the words of all of them. -/
theorem foldl_feed_texts {code : List Instruction} (hcode : ∀ d ∈ code, d.Legible)
    (a : Assembler) :
    (code.map fun d => d.text.toList).foldl Assembler.feed a =
      { a with words := a.words ++ code.flatMap Instruction.words, line := a.line + code.length } := by
  induction code generalizing a with
  | nil => simp
  | cons d code ih =>
      have hwords : a.words ++ d.words ++ code.flatMap Instruction.words =
          a.words ++ (d :: code).flatMap Instruction.words := by
        refine Array.toList_inj.mp ?_
        simp
      rw [List.map_cons, List.foldl_cons, feed_text (hcode d (List.mem_cons_self ..)),
        ih fun e he => hcode e (List.mem_cons_of_mem _ he), List.length_cons]
      simp only [hwords, Nat.add_assoc, Nat.add_comm 1]

/-- The text of a legible instruction is one line. -/
theorem isLine_text {d : Instruction} (hd : d.Legible) :
    d.text.toList ≠ [] ∧ '\n' ∉ d.text.toList ∧ d.text.toList.getLast? ≠ some '\r' := by
  have hends : ∀ c ∈ d.text.toList, isTokenEnd c = true → c = ' ' ∨ c = ',' := by
    intro c hc hend
    rw [hd.toList_text] at hc
    rcases mem_append_spread hc with h | h | ⟨s, hs, hmem⟩
    · exact Or.inl h
    · exact Or.inr h
    · rw [((isToken_of_legible hd s hs).2 c hmem).1] at hend
      cases hend
  refine ⟨?_, ?_, ?_⟩
  · rw [hd.toList_text]
    exact List.append_ne_nil_of_left_ne_nil (isToken_mnemonic _).1 _
  · intro hc
    exact absurd (hends _ hc (by decide)) (by decide)
  · intro hc
    exact absurd (hends _ (List.mem_of_getLast? hc) (by decide)) (by decide)

/-! ## The listing of a program -/

/-- The texts of legible instructions are assembled to their words, as far as these can be
resolved. -/
theorem assemble_intercalate {code : List Instruction} (hcode : ∀ d ∈ code, d.Legible) :
    assemble ("\n".intercalate (code.map Instruction.text)) =
      match Label.resolve (code.flatMap Instruction.words).toArray with
      | .ok p => .ok p
      | .error e => .error (.label e) := by
  have hlines : lines ("\n".intercalate (code.map Instruction.text)).toList =
      code.map fun d => d.text.toList := by
    rw [String.toList_intercalate, List.map_map]
    apply lines_intercalate
    intro l hl
    obtain ⟨d, hd, rfl⟩ := List.mem_map.mp hl
    exact isLine_text (hcode d hd)
  have hwords : (#[] : Array Word) ++ code.flatMap Instruction.words =
      (code.flatMap Instruction.words).toArray := by simp
  rw [assemble, hlines, foldl_feed_texts hcode, Assembler.finish]
  simp only [hwords]
  rfl

/-- There are no labels in legible instructions, and nothing that refers to one. -/
theorem resolve_of_legible {words : Array Word} {code : List Instruction}
    (hreads : Reads words 0 code) (hcode : ∀ d ∈ code, d.Legible) :
    Label.resolve words = .ok ⟨words⟩ := by
  apply Label.resolve_of_reads hreads
  intro d hd
  have hlabel := (hcode d hd).takesLabel_eq_false
  rw [Op.takesLabel, Bool.or_eq_false_iff] at hlabel
  refine ⟨fun hop => ?_, hlabel.1⟩
  rw [hop] at hlabel
  cases hlabel.2

/-- What a listing shows of legible instructions can be assembled again.  The texts of a program,
one on each line, give back the program; and the text of a single instruction gives back its words
in any assembler, and changes nothing else but the number of the line. -/
theorem assemble_listing :
    (∀ p : Program, Program.check p.words = .ok p →
      (∀ i d, p.starts.has i = true → decode? p.words i = some d → d.Legible) →
      assemble ("\n".intercalate (p.listing.map Prod.snd)) = .ok p) ∧
    ∀ d : Instruction, d.Legible → ∀ a : Assembler,
      a.feedLine d.text = { a with words := a.words ++ d.words, line := a.line + 1 } := by
  refine ⟨?_, fun d hd a => feed_text hd a⟩
  intro p hcheck hlegible
  obtain ⟨-, code, hreads⟩ := check_eq_ok_iff.mp hcheck
  have hcode : ∀ d ∈ code, d.Legible := by
    intro d hd
    have hstart := (Program.has_starts_iff hreads).mpr ⟨d, hd, rfl⟩
    exact hlegible d.position d hstart (hreads.decode?_of_mem hd)
  have htexts : p.listing.map Prod.snd = code.map Instruction.text := by
    rw [Program.listing, items_of_reads hreads, List.map_map, List.map_map]
    rfl
  have hwords : code.flatMap Instruction.words = p.words.toList := by
    have hall := flatMap_words_itemsFrom p.words 0
    rw [itemsFrom_of_reads hreads, List.flatMap_map] at hall
    exact hall
  rw [htexts, assemble_intercalate hcode, hwords, Array.toArray_toList,
    resolve_of_legible hreads hcode]

/-- The greatest and the least pattern of a value, and names that are spelled like the operands. -/
theorem assemble_listing_of_extremes :
    assemble "movd r1, 0xffffffff\naddr rbp, rip\nint 0x80000000\nhlt" =
        .ok ⟨#[1, 0, -1, 9, 6, 8, 80, -0x80000000, 32]⟩ ∧
      ((Assembler.after [".const r1 7", ".dword 0xffffffff 3"]).feedLine
        "movd r1, 0xffffffff").words = #[25, 0, 3, 1, 0, -1] := by
  have hcheck : Program.check #[1, 0, -1, 9, 6, 8, 80, -0x80000000, 32] =
      .ok ⟨#[1, 0, -1, 9, 6, 8, 80, -0x80000000, 32]⟩ := by decide +kernel
  have hstarts : ∀ i < 9, (⟨#[1, 0, -1, 9, 6, 8, 80, -0x80000000, 32]⟩ : Program).starts.has i =
      true → i = 0 ∨ i = 3 ∨ i = 6 ∨ i = 8 := by decide +kernel
  have hlisting : "\n".intercalate
      ((⟨#[1, 0, -1, 9, 6, 8, 80, -0x80000000, 32]⟩ : Program).listing.map Prod.snd) =
        "movd r1, 0xffffffff\naddr rbp, rip\nint 0x80000000\nhlt" := by decide +kernel
  have hknown : (Assembler.after [".const r1 7", ".dword 0xffffffff 3"]).words = #[25, 0, 3] := by
    decide +kernel
  obtain ⟨hprogram, hline⟩ := assemble_listing
  constructor
  · rw [← hlisting]
    apply hprogram _ hcheck
    intro i d hi hdecode
    have hlt := Marks.lt_size_of_has hi
    rw [Program.size_starts] at hlt
    rcases hstarts i hlt hi with rfl | rfl | rfl | rfl
    · cases hdecode
      exact ⟨by decide, by decide⟩
    · cases hdecode
      exact ⟨by decide, by decide⟩
    · cases hdecode
      trivial
    · cases hdecode
      trivial
  · have hmove := hline { op := .binary .mov .immediate, position := 0, first := 0, second := -1 }
      ⟨by decide, by decide⟩ (Assembler.after [".const r1 7", ".dword 0xffffffff 3"])
    have htext : Instruction.text
        { op := .binary .mov .immediate, position := 0, first := 0, second := -1 } =
          "movd r1, 0xffffffff" := by decide +kernel
    rw [htext] at hmove
    rw [hmove, hknown]
    rfl

end Assembly

end WordMachine
