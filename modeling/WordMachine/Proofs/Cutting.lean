import Mathlib.Data.List.TakeWhile
import WordMachine.Proofs.Persistence

/-!
# Where texts are cut

What trimming and cutting give is told here without the way it is found.  A trimmed text is what is
left between blanks at both ends, neither its first nor its last character being one (`Trims`).  The
pieces of a text are the texts without separators that give it back when they are joined
(`Joins`).

`trim_append_append` says that blanks around a text do not matter, and `isBlank_toLower` that the
case of letters has nothing to do with blanks.
-/

namespace WordMachine.Text

variable {l r s t : List Char} {c : Char}

/-! ## Letter case -/

/-- What holds of the ASCII characters, which can be tried, and of all others, holds of all. -/
theorem forall_char {P : Char → Prop} (hascii : ∀ n < 128, P (Char.ofNat n))
    (hothers : ∀ c : Char, 128 ≤ c.toNat → P c) (c : Char) : P c := by
  by_cases hc : c.toNat < 128
  · exact Char.ofNat_toNat c ▸ hascii c.toNat hc
  · exact hothers c (Nat.le_of_not_lt hc)

/-- Only ASCII letters have a case. -/
theorem toLower_eq_self (hc : 128 ≤ c.toNat) : c.toLower = c := by
  refine dif_neg fun hupper => ?_
  have hle : c.toNat ≤ 90 := hupper.2
  omega

theorem toLower_cases (c : Char) :
    c.toLower = c ∨ c.isUpper = true ∧ c.toLower.isLower = true := by
  induction c using forall_char with
  | hascii n hn => revert n; decide
  | hothers c hc => exact Or.inl (toLower_eq_self hc)

theorem toLower_toLower (c : Char) : c.toLower.toLower = c.toLower := by
  induction c using forall_char with
  | hascii n hn => revert n; decide
  | hothers c hc => rw [toLower_eq_self hc, toLower_eq_self hc]

/-- A character that is no letter has no other spelling. -/
theorem toLower_eq_iff {e : Char} (he : e.isAlpha = false) : c.toLower = e ↔ c = e := by
  obtain ⟨hupper, hlower⟩ : e.isUpper = false ∧ e.isLower = false := Bool.or_eq_false_iff.mp he
  rcases toLower_cases c with hsame | ⟨hc, hc'⟩
  · rw [hsame]
  · refine iff_of_false ?_ ?_
    · rintro rfl
      simp [hc'] at hlower
    · rintro rfl
      simp [hc] at hupper

theorem isBlank_toLower (c : Char) : isBlank c.toLower = isBlank c := by
  induction c using forall_char with
  | hascii n hn => revert n; decide
  | hothers c hc => rw [toLower_eq_self hc]

/-! ## Trimming -/

/-- The second text is what is left of the first between the blanks at its ends. -/
structure Trims (s t : List Char) : Prop where
  exists_blanks : ∃ l r, s = l ++ t ++ r ∧ (∀ c ∈ l, isBlank c = true) ∧ ∀ c ∈ r, isBlank c = true
  first : ∀ c, t.head? = some c → isBlank c = false
  last : ∀ c, t.getLast? = some c → isBlank c = false

theorem trimStart_append (hl : ∀ c ∈ l, isBlank c = true) (s : List Char) :
    trimStart (l ++ s) = trimStart s :=
  List.dropWhile_append_of_pos hl

theorem trimEnd_append (s : List Char) (hr : ∀ c ∈ r, isBlank c = true) :
    trimEnd (s ++ r) = trimEnd s := by
  rw [trimEnd, List.reverse_append,
    List.dropWhile_append_of_pos fun c hc => hr c (List.mem_reverse.mp hc), trimEnd]

theorem trim_of_blank (hs : ∀ c ∈ s, isBlank c = true) : trim s = [] := by
  rw [trim, trimStart, List.dropWhile_eq_nil_iff.mpr hs]
  rfl

/-- Blanks around a text do not matter. -/
theorem trim_append_append (hl : ∀ c ∈ l, isBlank c = true) (hr : ∀ c ∈ r, isBlank c = true)
    (s : List Char) : trim (l ++ s ++ r) = trim s := by
  rw [List.append_assoc, trim, trimStart_append hl, trimStart, List.dropWhile_append]
  split
  · next hempty =>
    have hs : ∀ c ∈ s, isBlank c = true :=
      List.dropWhile_eq_nil_iff.mp (List.isEmpty_iff.mp hempty)
    rw [trim_of_blank hs, List.dropWhile_eq_nil_iff.mpr hr]
    rfl
  · rw [trimEnd_append _ hr, trim, trimStart]

theorem head?_dropWhile_isBlank (s : List Char) :
    ∀ c, (s.dropWhile isBlank).head? = some c → isBlank c = false := by
  intro c hc
  have hnot := List.head?_dropWhile_not isBlank s
  rw [hc] at hnot
  simpa using hnot

/-- Trimming finds what is left between the blanks, and nothing else is. -/
theorem trims_iff : Trims s t ↔ trim s = t := by
  constructor
  · rintro ⟨⟨l, r, rfl, hl, hr⟩, hfirst, hlast⟩
    rw [trim_append_append hl hr, trim_eq_self hfirst hlast]
  · rintro rfl
    -- the blanks in front, and those behind in reverse, are what the two cuts have dropped
    have hfront := List.takeWhile_append_dropWhile (p := isBlank) (l := s)
    have hback := List.takeWhile_append_dropWhile (p := isBlank) (l := (trimStart s).reverse)
    have hsplit : trimStart s = trim s ++ ((trimStart s).reverse.takeWhile isBlank).reverse := by
      rw [trim, trimEnd, ← List.reverse_append, hback, List.reverse_reverse]
    refine ⟨⟨s.takeWhile isBlank, ((trimStart s).reverse.takeWhile isBlank).reverse, ?_, ?_, ?_⟩,
      ?_, ?_⟩
    · rw [List.append_assoc, ← hsplit]
      exact hfront.symm
    · exact fun c hc => List.mem_takeWhile_imp hc
    · exact fun c hc => List.mem_takeWhile_imp (List.mem_reverse.mp hc)
    · intro c hc
      apply head?_dropWhile_isBlank s
      show (trimStart s).head? = some c
      rw [hsplit, List.head?_append, hc, Option.some_or]
    · intro c hc
      apply head?_dropWhile_isBlank (trimStart s).reverse
      rwa [trim, trimEnd, List.getLast?_reverse] at hc

theorem trim_map_toLower (s : List Char) :
    trim (s.map Char.toLower) = (trim s).map Char.toLower := by
  have hblank : isBlank ∘ Char.toLower = isBlank := funext isBlank_toLower
  simp only [trim, trimStart, trimEnd, List.dropWhile_map, ← List.map_reverse, hblank]

/-! ## Cutting -/

/-- The pieces give the text back when they are joined by the separator, which is in none of
them. -/
structure Joins (sep : Char) (ps : List (List Char)) (s : List Char) : Prop where
  ne_nil : ps ≠ []
  notMem : ∀ p ∈ ps, sep ∉ p
  intercalate : [sep].intercalate ps = s

/-- At a separator, a text is cut. -/
theorem pieces_append_sep {sep : Char → Bool} (hc : sep c = true) (s rest : List Char) :
    pieces sep (s ++ c :: rest) = pieces sep s ++ pieces sep rest := by
  induction s with
  | nil => simp [pieces, hc]
  | cons d s ih =>
      rw [List.cons_append, pieces, ih, pieces]
      split
      · rfl
      · cases hs : pieces sep s with
        | nil => exact absurd hs (pieces_ne_nil sep s)
        | cons p ps => rfl

theorem pieces_intercalate {sep : Char} {ps : List (List Char)} (hne : ps ≠ [])
    (hps : ∀ p ∈ ps, sep ∉ p) : pieces (· == sep) ([sep].intercalate ps) = ps := by
  induction ps with
  | nil => exact absurd rfl hne
  | cons p ps ih =>
      have hp : pieces (· == sep) p = [p] := pieces_of_not_sep fun c hc => by
        rw [beq_eq_false_iff_ne]
        rintro rfl
        exact hps p (List.mem_cons_self ..) hc
      cases ps with
      | nil => rw [List.intercalate_singleton, hp]
      | cons q qs =>
          have hrest := ih (List.cons_ne_nil _ _) fun p' hp' => hps p' (List.mem_cons_of_mem _ hp')
          rw [List.intercalate_cons_cons, List.append_assoc, List.singleton_append,
            pieces_append_sep (by simp), hp, hrest, List.singleton_append]

theorem intercalate_pieces (sep : Char) (s : List Char) :
    [sep].intercalate (pieces (· == sep) s) = s := by
  induction s with
  | nil => rfl
  | cons c s ih =>
      unfold pieces
      cases hs : pieces (· == sep) s with
      | nil => exact absurd hs (pieces_ne_nil _ s)
      | cons p ps =>
          rw [hs] at ih
          split
          · next hc =>
            rw [List.intercalate_cons_cons, ih, eq_of_beq hc]
            rfl
          · cases ps with
            | nil => rw [List.intercalate_singleton] at ih ⊢; rw [ih]
            | cons q qs =>
                rw [List.intercalate_cons_cons] at ih ⊢
                rw [← ih]
                rfl

theorem mem_intercalate {sep : Char} {ps : List (List Char)} (hs : s ∈ ps) (hc : c ∈ s) :
    c ∈ [sep].intercalate ps := by
  induction ps with
  | nil => cases hs
  | cons p ps ih =>
      cases ps with
      | nil =>
          obtain rfl := List.mem_singleton.mp hs
          rwa [List.intercalate_singleton]
      | cons q qs =>
          rw [List.intercalate_cons_cons, List.append_assoc, List.mem_append, List.mem_append]
          rcases List.mem_cons.mp hs with rfl | hs
          · exact Or.inl hc
          · exact Or.inr (Or.inr (ih hs))

theorem mem_of_mem_intercalate {sep : Char} {ps : List (List Char)}
    (hc : c ∈ [sep].intercalate ps) : c = sep ∨ ∃ s ∈ ps, c ∈ s := by
  induction ps with
  | nil => cases hc
  | cons p ps ih =>
      cases ps with
      | nil =>
          rw [List.intercalate_singleton] at hc
          exact Or.inr ⟨p, List.mem_singleton_self p, hc⟩
      | cons q qs =>
          rw [List.intercalate_cons_cons, List.append_assoc, List.mem_append, List.mem_append,
            List.mem_singleton] at hc
          rcases hc with hc | hc | hc
          · exact Or.inr ⟨p, List.mem_cons_self .., hc⟩
          · exact Or.inl hc
          · exact (ih hc).imp_right fun ⟨s, hs, hc⟩ => ⟨s, List.mem_cons_of_mem _ hs, hc⟩

/-- Cutting finds the pieces that can be joined, and there are no others. -/
theorem joins_iff {sep : Char} {ps : List (List Char)} :
    Joins sep ps s ↔ pieces (· == sep) s = ps := by
  constructor
  · rintro ⟨hne, hps, rfl⟩
    exact pieces_intercalate hne hps
  · rintro rfl
    refine ⟨pieces_ne_nil _ s, fun p hp hmem => ?_, intercalate_pieces sep s⟩
    simpa using not_sep_of_mem_pieces hp sep hmem

end WordMachine.Text
