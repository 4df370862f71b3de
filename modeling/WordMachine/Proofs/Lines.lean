import Mathlib.Data.List.Forall2
import Mathlib.Data.List.Induction
import WordMachine.Assembly.Assembler
import WordMachine.Proofs.Layout
import WordMachine.Proofs.Outcome

/-!
# Source lines are all or nothing

A source line either takes its whole effect, and then the words it adds to the code are whole
instructions, or it adds one diagnostic and changes nothing else.  So after any lines the code can
be read to its end, however many of the lines were at fault, and an assembler without diagnostics
has nothing left to do but to resolve the labels.
-/

namespace WordMachine.Assembly

/-! ## The words of one line -/

/-- The words that an effect adds to the code. -/
def Effect.words : Effect → List Word
  | .skip | .define _ _ => []
  | .emit words | .declare _ words => words

/-- Results of reading a list one by one belong to its elements one by one. -/
theorem forall₂_of_mapM {α β ε : Type} {f : α → Except ε β} {xs : List α} {ys : List β}
    (hmap : xs.mapM f = .ok ys) : List.Forall₂ (fun x y => f x = .ok y) xs ys := by
  induction xs generalizing ys with
  | nil => cases hmap; exact .nil
  | cons x xs ih =>
      rw [List.mapM_cons] at hmap
      cases hx : f x with
      | error e => rw [hx] at hmap; cases hmap
      | ok y =>
          rw [hx] at hmap
          cases hrest : xs.mapM f with
          | error e => rw [hrest] at hmap; cases hmap
          | ok rest =>
              rw [hrest] at hmap
              cases hmap
              exact .cons hx (ih hrest)

theorem mapM_of_forall₂ {α β ε : Type} {f : α → Except ε β} {xs : List α} {ys : List β}
    (hxs : List.Forall₂ (fun x y => f x = .ok y) xs ys) : xs.mapM f = .ok ys := by
  induction hxs with
  | nil => rfl
  | cons hx _ ih =>
      rw [List.mapM_cons, hx, ih]
      rfl

theorem whole_byteStores (base : Word) (index : Nat) (values : List Word) :
    Whole (byteStores base index values) := by
  induction values generalizing index with
  | nil => exact .nil
  | cons v rest ih => exact .append (.opcode_cons rfl) (ih (index + 1))

theorem whole_of_readDirective {t : Symbols} {line : List Char} {effect : Effect}
    (hread : readDirective t line = .ok effect) : Whole effect.words := by
  unfold readDirective at hread
  split at hread
  · cases hread
  · next word name value hsplit =>
    split at hread
    · cases hread
    · next d hd =>
      split at hread
      · cases hread
      · cases d with
        | const =>
            simp only [Directive.read] at hread
            split at hread <;> cases hread
            exact .nil
        | dword =>
            simp only [Directive.read] at hread
            split at hread <;> cases hread
            exact .opcode_cons rfl
        | bytes =>
            simp only [Directive.read] at hread
            cases hvalues : (dropBlankEnd (Text.pieces (· == ',') value)).mapM byteItem with
            | error e => rw [hvalues] at hread; cases hread
            | ok values =>
                rw [hvalues] at hread
                cases hread
                exact whole_byteStores ..
        | string =>
            simp only [Directive.read] at hread
            split at hread <;> cases hread
            exact whole_byteStores ..

/-- An instruction that can be read adds its opcode and its operands, and does nothing else. -/
theorem emits_of_readOperands {t : Symbols} {line : List Char} {op : Op} {operands : List String}
    {effect : Effect} (hread : readOperands t line op operands = .ok effect) :
    ∃ words, effect = .emit words ∧ Whole words := by
  unfold readOperands at hread
  split at hread
  · next hop =>
    split at hread <;> cases hread
    exact ⟨_, rfl, .opcode_cons (Label.operandCount_of_takesLabel hop).symm⟩
  · split at hread
    · cases hread
    · next hcount =>
      cases hvalues : operands.mapM (readOperand t) with
      | error e => rw [hvalues] at hread; cases hread
      | ok values =>
          rw [hvalues] at hread
          cases hread
          have hlength := (forall₂_of_mapM hvalues).length_eq
          exact ⟨_, rfl, .opcode_cons (hlength.symm.trans (not_not.mp hcount))⟩

theorem emits_of_readInstruction {t : Symbols} {line : List Char} {effect : Effect}
    (hread : readInstruction t line = .ok effect) :
    ∃ words, effect = .emit words ∧ Whole words := by
  unfold readInstruction at hread
  split at hread
  · split at hread <;> cases hread
    exact ⟨_, rfl, .opcode_cons rfl⟩
  · split at hread
    · cases hread
    · split at hread
      · cases hread
      · exact emits_of_readOperands hread

/-- The words that a line adds are whole instructions. -/
theorem whole_of_readLine {t : Symbols} {raw : List Char} {effect : Effect}
    (hread : readLine t raw = .ok effect) : Whole effect.words := by
  unfold readLine at hread
  split at hread
  · cases hread; exact .nil
  · exact whole_of_readDirective hread
  · obtain ⟨words, rfl, hwhole⟩ := emits_of_readInstruction hread
    exact hwhole

/-! ## All or nothing -/

namespace Assembler

variable {a b : Assembler} {raws : List String} {raw : String} {n : Nat}

/-- The assembler after some lines. -/
def after (raws : List String) : Assembler := raws.foldl feedLine {}

/-- A line has taken effect: there is no further diagnostic, and whole instructions have been added
to the code. -/
def Accepted (a b : Assembler) : Prop :=
  b.diagnostics = a.diagnostics ∧
    ∃ added starts, b.words.toList = a.words.toList ++ added ∧ walk added.toArray = .ok starts

/-- Line number `n` has been rejected: there is one more diagnostic, which is for this line, and the
code, the constants and the variables are as before. -/
def Rejected (n : Nat) (a b : Assembler) : Prop :=
  (∃ fault, b.diagnostics = a.diagnostics.push ⟨n, fault⟩) ∧ b.words = a.words ∧
    b.symbols = a.symbols

/-- Of some lines, the one with number `n` is rejected when its turn comes. -/
def RejectsLine (raws : List String) (n : Nat) : Prop :=
  ∃ before raw rest, raws = before ++ raw :: rest ∧ n = before.length + 1 ∧
    Rejected n (after before) (after (before ++ [raw]))

theorem after_concat (raws : List String) (raw : String) :
    after (raws ++ [raw]) = (after raws).feedLine raw := by
  rw [after, List.foldl_concat]
  rfl

theorem line_after (raws : List String) : (after raws).line = raws.length := by
  induction raws using List.reverseRecOn with
  | nil => rfl
  | append_singleton raws raw ih =>
      rw [after_concat, feedLine, line_feed, ih, List.length_append, List.length_singleton]

theorem words_apply (a : Assembler) (effect : Effect) :
    (a.apply effect).words.toList = a.words.toList ++ effect.words := by
  cases effect <;> simp [apply, Effect.words]

theorem diagnostics_apply (a : Assembler) (effect : Effect) :
    (a.apply effect).diagnostics = a.diagnostics := by
  cases effect <;> rfl

theorem not_accepted_of_rejected (hrejected : Rejected n a b) : ¬ Accepted a b := by
  obtain ⟨⟨fault, hdiagnostics⟩, -, -⟩ := hrejected
  intro haccepted
  have hsize := congrArg Array.size (haccepted.1.symm.trans hdiagnostics)
  rw [Array.size_push] at hsize
  omega

/-- What a line does depends on whether it can be read. -/
theorem feed_cases (a : Assembler) (raw : List Char) :
    (∃ effect, readLine a.symbols raw = .ok effect ∧ (a.feed raw).diagnostics = a.diagnostics ∧
        (a.feed raw).words.toList = a.words.toList ++ effect.words) ∨
      Rejected (a.line + 1) a (a.feed raw) := by
  cases hread : readLine a.symbols raw with
  | ok effect =>
      left
      rw [feed_of_ok hread, diagnostics_apply, words_apply]
      exact ⟨effect, rfl, rfl, rfl⟩
  | error fault =>
      right
      rw [feed_of_error hread]
      exact ⟨⟨fault, rfl⟩, rfl, rfl⟩

theorem accepted_or_rejected (a : Assembler) (raw : List Char) :
    Accepted a (a.feed raw) ∨ Rejected (a.line + 1) a (a.feed raw) := by
  rcases feed_cases a raw with ⟨effect, hread, hdiagnostics, hwords⟩ | hrejected
  · obtain ⟨starts, hwalk⟩ := (whole_of_readLine hread).exists_walk
    exact Or.inl ⟨hdiagnostics, effect.words, starts, hwords, hwalk⟩
  · exact Or.inr hrejected

/-! ## After any lines -/

/-- The code is whole instructions after every line. -/
theorem whole_words_after (raws : List String) : Whole (after raws).words.toList := by
  induction raws using List.reverseRecOn with
  | nil => exact .nil
  | append_singleton raws raw ih =>
      rw [after_concat, feedLine]
      rcases feed_cases (after raws) raw.toList with ⟨effect, hread, -, hwords⟩ | ⟨-, hwords, -⟩
      · rw [hwords]
        exact ih.append (whole_of_readLine hread)
      · rw [hwords]
        exact ih

theorem rejectsLine_concat_iff :
    RejectsLine (raws ++ [raw]) n ↔
      RejectsLine raws n ∨
        n = raws.length + 1 ∧ Rejected n (after raws) (after (raws ++ [raw])) := by
  constructor
  · rintro ⟨before, r, rest, hsplit, rfl, hrejected⟩
    rcases List.eq_nil_or_concat rest with rfl | ⟨rest, last, rfl⟩
    · obtain ⟨rfl, hlast⟩ := List.append_inj' hsplit rfl
      cases hlast
      exact Or.inr ⟨rfl, hrejected⟩
    · have hshift : raws ++ [raw] = (before ++ r :: rest) ++ [last] := by simp [hsplit]
      obtain ⟨rfl, -⟩ := List.append_inj' hshift rfl
      exact Or.inl ⟨before, r, rest, rfl, rfl, hrejected⟩
  · rintro (⟨before, r, rest, rfl, hn, hrejected⟩ | ⟨hn, hrejected⟩)
    · exact ⟨before, r, rest ++ [raw], by simp, hn, hrejected⟩
    · exact ⟨raws, raw, [], rfl, hn, hrejected⟩

theorem le_length_of_rejectsLine (hrejects : RejectsLine raws n) : n ≤ raws.length := by
  obtain ⟨before, raw, rest, rfl, rfl, -⟩ := hrejects
  simp

/-- The diagnostics name the rejected lines, one after the other. -/
theorem lines_of_diagnostics (raws : List String) :
    ((after raws).diagnostics.toList.map Diagnostic.line).Pairwise (· < ·) ∧
      ∀ n, n ∈ (after raws).diagnostics.toList.map Diagnostic.line ↔ RejectsLine raws n := by
  induction raws using List.reverseRecOn with
  | nil =>
      refine ⟨.nil, fun n => ⟨fun hn => absurd hn List.not_mem_nil, ?_⟩⟩
      rintro ⟨before, raw, rest, hsplit, -⟩
      simp at hsplit
  | append_singleton raws raw ih =>
      obtain ⟨hsorted, hmem⟩ := ih
      have hline := accepted_or_rejected (after raws) raw.toList
      rw [← feedLine, ← after_concat, line_after] at hline
      rcases hline with haccepted | hrejected
      · rw [haccepted.1]
        refine ⟨hsorted, fun n => ?_⟩
        rw [hmem, rejectsLine_concat_iff]
        refine ⟨Or.inl, ?_⟩
        rintro (hrejects | ⟨-, hrejected⟩)
        · exact hrejects
        · exact absurd haccepted (not_accepted_of_rejected hrejected)
      · obtain ⟨fault, hdiagnostics⟩ := hrejected.1
        rw [hdiagnostics, Array.toList_push, List.map_append]
        constructor
        · refine List.pairwise_append.mpr ⟨hsorted, List.pairwise_singleton .., ?_⟩
          intro n hn k hk
          rw [List.map_singleton, List.mem_singleton] at hk
          rw [hk]
          exact Nat.lt_succ_of_le (le_length_of_rejectsLine ((hmem n).mp hn))
        · intro n
          rw [List.mem_append, hmem, rejectsLine_concat_iff, List.map_singleton,
            List.mem_singleton]
          constructor
          · rintro (hrejects | rfl)
            · exact Or.inl hrejects
            · exact Or.inr ⟨rfl, hrejected⟩
          · rintro (hrejects | ⟨hn, -⟩)
            · exact Or.inl hrejects
            · exact Or.inr hn

/-- An assembler is without diagnostics exactly if no line has been rejected. -/
theorem isEmpty_diagnostics_iff (raws : List String) :
    (after raws).diagnostics.isEmpty = true ↔ ¬ ∃ n, RejectsLine raws n := by
  simp only [← (lines_of_diagnostics raws).2]
  rw [Array.isEmpty_iff, ← Array.toList_eq_nil_iff]
  cases (after raws).diagnostics.toList <;> simp

/-- Every source line is all or nothing.  Each line is accepted or rejected, but not both; and after
any lines the code can be read to its end, the diagnostics are in the order of the lines, and the
assembler ends with them if there are any and else by resolving the labels, which is not prevented
by the form of the code. -/
theorem accepted_or_rejected_after (raws : List String) :
    (∀ raw, (Accepted (after raws) (after (raws ++ [raw])) ∨
        Rejected (raws.length + 1) (after raws) (after (raws ++ [raw]))) ∧
      ¬ (Accepted (after raws) (after (raws ++ [raw])) ∧
        Rejected (raws.length + 1) (after raws) (after (raws ++ [raw])))) ∧
    (∃ starts, walk (after raws).words = .ok starts) ∧
    ((after raws).diagnostics.toList.map Diagnostic.line).Pairwise (· < ·) ∧
    (∀ list, (after raws).finish = .error (.diagnostics list) ↔
      (∃ n, RejectsLine raws n) ∧ list = (after raws).diagnostics.toList) ∧
    ((¬ ∃ n, RejectsLine raws n) →
      (after raws).finish = (Label.resolve (after raws).words).mapError .label ∧
      ∀ cause, Label.resolve (after raws).words ≠ .error (.malformed cause)) := by
  obtain ⟨starts, hwalk⟩ := (whole_words_after raws).exists_walk
  rw [Array.toArray_toList] at hwalk
  refine ⟨fun raw => ?_, ⟨starts, hwalk⟩, (lines_of_diagnostics raws).1, fun list => ?_,
    fun hnone => ⟨?_, Label.resolve_ne_malformed hwalk⟩⟩
  · have hline := accepted_or_rejected (after raws) raw.toList
    rw [← feedLine, ← after_concat, line_after] at hline
    exact ⟨hline, fun hboth => not_accepted_of_rejected hboth.2 hboth.1⟩
  · by_cases hnone : ∃ n, RejectsLine raws n
    · have hsome := mt (isEmpty_diagnostics_iff raws).mp (not_not.mpr hnone)
      rw [finish, if_neg hsome, and_iff_right hnone]
      constructor
      · intro heq
        cases heq
        rfl
      · rintro rfl
        rfl
    · have hempty := (isEmpty_diagnostics_iff raws).mpr hnone
      simp only [finish, if_pos hempty, hnone, false_and, iff_false]
      split <;> simp
  · have hempty := (isEmpty_diagnostics_iff raws).mpr hnone
    rw [finish, if_pos hempty]
    cases Label.resolve (after raws).words <;> rfl

end Assembler

end WordMachine.Assembly
