import Mathlib.Data.List.TakeDrop
import WordMachine.Proofs.Image
import WordMachine.Proofs.Operands

/-!
# Lines that declare variables

A line declares a variable by a directive, a name and a value, with blanks between them
(`Block.On`).  The directive says how the value is written (`Gives`): as a word, as a list of bytes
with commas between them, or as a text in quotes.  Commas behind the last byte of a list do not
count.

What a line declares can be told from the line alone, without the names that are known or the code
that is emitted.  Here it is told without the way it is found, too.  `Block.ofLine?` finds it by
cutting the line as the assembler does, and finds nothing else (`Block.ofLine?_eq_some_iff`).
-/

namespace WordMachine.Assembly

open Text

/-! ## Values and lines -/

/-- The value of a variable. -/
inductive Contents
  | dword (value : Word)
  | bytes (values : List Word)
  | string (text : List Char)
  deriving DecidableEq, Repr

/-- The bytes of a value: those of a word with the most significant one first, those that are
listed, or those of a text in UTF-8 with a zero byte behind them. -/
def Contents.image : Contents → List UInt8
  | .dword value => Memory.bytesOf (Word.bits value)
  | .bytes values => values.map fun v => (Word.bits v).toUInt8
  | .string text => text.flatMap String.utf8EncodeChar ++ [0]

/-- A variable and its value. -/
structure Block where
  name : String
  contents : Contents
  deriving DecidableEq, Repr

/-- What is written behind the name, in a directive of the given word, gives the variable its
value. -/
inductive Gives : String → List Char → Contents → Prop
  | dword {value : List Char} {w : Word} (hvalue : Spells value w) : Gives ".dword" value (.dword w)
  | bytes {value : List Char} {items : List (List Char)} {values : List Word} (commas : Nat)
      (hne : items ≠ []) (hvalue : Joins ',' (items ++ List.replicate commas []) value)
      (hitems : List.Forall₂ Spells items values) : Gives ".bytes" value (.bytes values)
  | string (text : List Char) : Gives ".string" ('\'' :: (text ++ ['\''])) (.string text)

/-- A text that is not empty and has no blanks in it. -/
def Unbroken (s : List Char) : Prop := s ≠ [] ∧ ∀ c ∈ s, isBlank c = false

/-- One or more blanks. -/
def IsGap (s : List Char) : Prop := s ≠ [] ∧ ∀ c ∈ s, isBlank c = true

/-- A line declares a variable. -/
inductive Block.On (b : Block) (line : List Char) : Prop
  | intro {word : String} {gap gap' value : List Char}
      (hline : Holds line (word.toList ++ gap ++ b.name.toList ++ gap' ++ value)) (hgap : IsGap gap)
      (hgap' : IsGap gap') (hname : Unbroken b.name.toList)
      (hhash : '#' ∉ b.name.toList ∧ '#' ∉ value) (hvalue : Gives word value b.contents)

/-- A line that is blank but for a comment, or a directive. -/
def IsData (line : List Char) : Prop := Holds line [] ∨ ∃ rest, Holds line ('.' :: rest)

/-- Lines declare some variables, one after the other; there may be lines between them that declare
none. -/
inductive LinesDeclare : List (List Char) → List Block → Prop
  | nil : LinesDeclare [] []
  | other {line : List Char} {lines : List (List Char)} {bs : List Block}
      (hnone : ∀ b : Block, ¬ b.On line) (hrest : LinesDeclare lines bs) :
      LinesDeclare (line :: lines) bs
  | block {line : List Char} {lines : List (List Char)} {b : Block} {bs : List Block}
      (hline : b.On line) (hrest : LinesDeclare lines bs) : LinesDeclare (line :: lines) (b :: bs)

/-! ## Cutting a line -/

variable {s t word rest line value : List Char} {c : Char} {w : Word}

theorem trims_self (hfirst : ∀ c, s.head? = some c → isBlank c = false)
    (hlast : ∀ c, s.getLast? = some c → isBlank c = false) : Trims s s :=
  ⟨⟨[], [], by simp, by simp, by simp⟩, hfirst, hlast⟩

theorem head?_not_blank (hs : Unbroken s) (t : List Char) :
    ∃ c, (s ++ t).head? = some c ∧ isBlank c = false := by
  obtain ⟨hne, hs⟩ := hs
  obtain ⟨c, s, rfl⟩ := List.exists_cons_of_ne_nil hne
  exact ⟨c, rfl, hs c (List.mem_cons_self ..)⟩

theorem span_not_blank (s : List Char) : (s.span fun c => !isBlank c) =
    (s.takeWhile fun c => !isBlank c, s.dropWhile fun c => !isBlank c) :=
  List.span_eq_takeWhile_dropWhile _ s

/-- The first word of a text stands behind blanks, and there is a blank behind it or nothing. -/
theorem exists_gap_of_splitToken? (hsplit : splitToken? s = some (word, rest)) :
    ∃ gap, s = gap ++ word ++ rest ∧ (∀ c ∈ gap, isBlank c = true) ∧ Unbroken word ∧
      ∀ c, rest.head? = some c → isBlank c = true := by
  have hfront := List.takeWhile_append_dropWhile (p := isBlank) (l := s)
  have hfirst := head?_dropWhile_isBlank s
  unfold splitToken? trimStart at hsplit
  generalize s.dropWhile isBlank = t at hsplit hfront hfirst
  split at hsplit
  · cases hsplit
  · next hne =>
    rw [span_not_blank] at hsplit
    cases hsplit
    refine ⟨s.takeWhile isBlank, ?_, fun c hc => List.mem_takeWhile_imp hc, ⟨?_, ?_⟩, ?_⟩
    · rw [List.append_assoc, List.takeWhile_append_dropWhile, hfront]
    · obtain ⟨c, t, rfl⟩ := List.exists_cons_of_ne_nil hne
      rw [List.takeWhile_cons_of_pos (by simp [hfirst c rfl])]
      exact List.cons_ne_nil _ _
    · intro c hc
      simpa using List.mem_takeWhile_imp hc
    · intro c hc
      have hstop := List.head?_dropWhile_not (fun c => !isBlank c) t
      rw [hc] at hstop
      simpa using hstop

theorem splitToken?_append {gap : List Char} (hgap : ∀ c ∈ gap, isBlank c = true)
    (hword : Unbroken word) (hrest : ∀ c, rest.head? = some c → isBlank c = true) :
    splitToken? (gap ++ word ++ rest) = some (word, rest) := by
  obtain ⟨c, hc, hblank⟩ := head?_not_blank hword rest
  have htrim : trimStart (gap ++ word ++ rest) = word ++ rest := by
    obtain ⟨t, ht⟩ := List.head?_eq_some_iff.mp hc
    rw [List.append_assoc, trimStart_append hgap, ht, trimStart,
      List.dropWhile_cons_of_neg (by simp [hblank])]
  have hplain : ∀ c ∈ word, (!isBlank c) = true := fun c hc => by simp [hword.2 c hc]
  have hstop : rest.takeWhile (fun c => !isBlank c) = [] ∧
      rest.dropWhile (fun c => !isBlank c) = rest := by
    cases rest with
    | nil => exact ⟨rfl, rfl⟩
    | cons d rest => simp [hrest d rfl]
  unfold splitToken?
  rw [htrim]
  split
  · next hnil => simp [hnil] at hc
  · rw [span_not_blank, List.takeWhile_append_of_pos hplain, List.dropWhile_append_of_pos hplain,
      hstop.1, hstop.2, List.append_nil]

/-- Blanks at an end of a text where there is no blank are none. -/
theorem eq_nil_of_head? (hs : ∀ c ∈ s, isBlank c = true)
    (hfirst : ∀ c, s.head? = some c → isBlank c = false) : s = [] := by
  by_contra hne
  obtain ⟨c, s, rfl⟩ := List.exists_cons_of_ne_nil hne
  have hblank := hs c (List.mem_cons_self ..)
  rw [hfirst c rfl] at hblank
  cases hblank

theorem eq_nil_of_getLast? (hs : ∀ c ∈ s, isBlank c = true)
    (hlast : ∀ c, s.getLast? = some c → isBlank c = false) : s = [] := by
  refine List.reverse_eq_nil_iff.mp (eq_nil_of_head? (fun c hc => hs c (List.mem_reverse.mp hc)) ?_)
  rwa [List.head?_reverse]

/-- Blanks between a blank and a text that does not begin with one are a gap. -/
theorem isGap_of_head? {gap : List Char} (hgap : ∀ c ∈ gap, isBlank c = true) (hne : s ≠ [])
    (hs : ∀ c, s.head? = some c → isBlank c = false)
    (hfirst : ∀ c, (gap ++ s ++ t).head? = some c → isBlank c = true) : IsGap gap := by
  refine ⟨?_, hgap⟩
  rintro rfl
  obtain ⟨c, s, rfl⟩ := List.exists_cons_of_ne_nil hne
  have hblank := hfirst c rfl
  rw [hs c rfl] at hblank
  cases hblank

theorem Unbroken.head_not_blank (hs : Unbroken s) : ∀ c, s.head? = some c → isBlank c = false :=
  fun c hc => hs.2 c (List.mem_of_head? hc)

theorem IsGap.head_blank {gap : List Char} (hgap : IsGap gap) (t : List Char) :
    ∀ c, (gap ++ t).head? = some c → isBlank c = true := by
  obtain ⟨hne, hgap⟩ := hgap
  obtain ⟨c, gap, rfl⟩ := List.exists_cons_of_ne_nil hne
  rintro _ ⟨⟩
  exact hgap c (List.mem_cons_self ..)

theorem IsGap.hash_notMem {gap : List Char} (hgap : IsGap gap) : '#' ∉ gap :=
  fun hmem => ne_hash_of_blank (hgap.2 _ hmem) rfl

theorem trims_self_of_not_blank (hs : ∀ c ∈ s, isBlank c = false) : Trims s s :=
  trims_self (fun c hc => hs c (List.mem_of_head? hc)) fun c hc => hs c (List.mem_of_getLast? hc)

/-- A line is a word, a name and a value, with gaps between them.  Only a text may have blanks in
it. -/
structure Parts (line : List Char) (word name : String) (value : List Char) : Prop where
  exists_gaps : ∃ gap gap', line = word.toList ++ gap ++ name.toList ++ gap' ++ value ∧
    IsGap gap ∧ IsGap gap'
  unbroken_word : Unbroken word.toList
  unbroken_name : Unbroken name.toList
  value_ne_nil : value ≠ []
  value_trims : Trims value value
  value_plain : word ≠ ".string" → ∀ c ∈ value, isBlank c = false

/-- There is no blank at the ends of such a line. -/
theorem Parts.trims {word name : String} (hparts : Parts line word name value) :
    Trims line line := by
  obtain ⟨⟨gap, gap', rfl, hgap, hgap'⟩, hword, -, hne, hvalue, -⟩ := hparts
  refine trims_self (fun c hc => ?_) fun c hc => ?_
  · simp only [List.append_assoc] at hc
    rw [List.head?_append_of_ne_nil _ hword.1] at hc
    exact hword.head_not_blank c hc
  · rw [List.getLast?_append_of_ne_nil _ hne] at hc
    exact hvalue.last c hc

theorem splitDirective?_of_parts {word name : String} (hparts : Parts line word name value) :
    splitDirective? line = some (word, name, value) := by
  obtain ⟨⟨gap, gap', rfl, hgap, hgap'⟩, hword, hname, hne, hvalue, hplain⟩ := hparts
  have hcut : splitToken? (word.toList ++ gap ++ name.toList ++ gap' ++ value) =
      some (word.toList, gap ++ (name.toList ++ gap' ++ value)) := by
    simpa using splitToken?_append (List.forall_mem_nil _) hword
      (hgap.head_blank (name.toList ++ gap' ++ value))
  have hcut' : splitToken? (gap ++ (name.toList ++ gap' ++ value)) =
      some (name.toList, gap' ++ value) := by
    simpa using splitToken?_append hgap.2 hname (hgap'.head_blank value)
  have htrim : trim (gap' ++ value) = value := by
    have hends := trim_append_append hgap'.2 (List.forall_mem_nil _) value
    rw [List.append_nil] at hends
    rw [hends, trims_iff.mp hvalue]
  simp only [splitDirective?, hcut, hcut', htrim, Option.bind_eq_bind, Option.bind_some,
    String.ofList_toList]
  rw [if_neg (by simpa using hne), if_neg]
  simpa [Directive.word] using hplain

/-- A line without blanks at its ends is cut into parts. -/
theorem parts_of_splitDirective? {word name : String} (hline : Trims line line)
    (hsplit : splitDirective? line = some (word, name, value)) : Parts line word name value := by
  simp only [splitDirective?, Option.bind_eq_bind, Option.bind_eq_some_iff, Prod.exists] at hsplit
  obtain ⟨word', rest, hcut, name', rest', hcut', hvalue⟩ := hsplit
  obtain ⟨blanks, rfl, hblanks, hword, hrest⟩ := exists_gap_of_splitToken? hcut
  obtain ⟨gap, rfl, hgap, hname, hrest'⟩ := exists_gap_of_splitToken? hcut'
  split at hvalue
  · cases hvalue
  · next hne =>
    split at hvalue
    · cases hvalue
    · next hplain =>
      cases hvalue
      have htrims : Trims rest' (trim rest') := trims_iff.mpr rfl
      generalize trim rest' = value at hne hplain htrims ⊢
      obtain ⟨⟨gap', r, rfl, hgap', hr⟩, hfirst, hlast⟩ := htrims
      have hne : value ≠ [] := fun h => hne (by rw [h]; rfl)
      -- what is cut off at the ends of the line is blank, and there is no blank there
      obtain rfl : blanks = [] := by
        refine eq_nil_of_head? hblanks fun c hc => hline.first c ?_
        rw [List.append_assoc, List.head?_append, hc, Option.some_or]
      obtain rfl : r = [] := by
        refine eq_nil_of_getLast? hr fun c hc => hline.last c ?_
        simp only [← List.append_assoc]
        rw [List.getLast?_append, hc, Option.some_or]
      refine ⟨⟨gap, gap', by simp, isGap_of_head? hgap hname.1 hname.head_not_blank hrest,
        isGap_of_head? hgap' hne hfirst hrest'⟩, ?_, ?_, hne, trims_self hfirst hlast, ?_⟩
      · rwa [String.toList_ofList]
      · rwa [String.toList_ofList]
      · simpa [Directive.word] using hplain

/-! ## Reading a value -/

theorem Unbroken.cons (hc : isBlank c = false) (hs : ∀ d ∈ s, isBlank d = false) :
    Unbroken (c :: s) :=
  ⟨List.cons_ne_nil _ _, List.forall_mem_cons.mpr ⟨hc, hs⟩⟩

theorem unbroken_of_denotes {base n : Nat} (hs : Denotes base s n) : Unbroken s :=
  ⟨hs.1, hs.not_blank⟩

theorem Spells.unbroken (hs : Spells s w) : Unbroken s := by
  cases hs with
  | @bits digits hmark hdigits =>
      have hplain : ∀ c ∈ digits, isBlank c = false := by
        rcases hdigits with hdigits | ⟨digits, rfl, hdigits⟩
        · exact hdigits.not_blank
        · exact (Unbroken.cons (by decide) hdigits.not_blank).2
      rcases hmark with rfl | rfl
      · exact .cons (by decide) (Unbroken.cons (by decide) hplain).2
      · exact .cons (by decide) (Unbroken.cons (by decide) hplain).2
  | value hmark hs =>
      generalize w.toInt = i at hs
      cases hs with
      | plain hs => exact unbroken_of_denotes hs
      | plus hs => exact .cons (by decide) hs.not_blank
      | minus hs => exact .cons (by decide) hs.not_blank

theorem unbroken_of_spelled {items : List (List Char)} {values : List Word}
    (hitems : List.Forall₂ Spells items values) : ∀ item ∈ items, Unbroken item :=
  ((List.forall₂_and_left _ _).mp (hitems.imp fun _ _ h => ⟨h.unbroken, h⟩)).1

theorem literal?_of_not_blank_iff (hs : ∀ c ∈ s, isBlank c = false) :
    literal? s = some w ↔ Spells s w := by
  rw [literal?_eq_some_iff, trim_of_not_blank hs]

theorem mapM_eq_some_iff {α β : Type} {f : α → Option β} {as : List α} {bs : List β} :
    as.mapM f = some bs ↔ List.Forall₂ (fun a b => f a = some b) as bs := by
  induction as generalizing bs with
  | nil => simp [eq_comm]
  | cons a as ih =>
      simp only [List.mapM_cons, Option.bind_eq_bind, Option.bind_eq_some_iff, Option.pure_def,
        Option.some.injEq, ih, List.forall₂_cons_left_iff]
      constructor
      · rintro ⟨b, hb, bs, hbs, rfl⟩
        exact ⟨b, bs, hb, hbs, rfl⟩
      · rintro ⟨b, bs, hb, hbs, rfl⟩
        exact ⟨b, hb, bs, hbs, rfl⟩

/-- The items of a list are those before the commas at its end. -/
theorem dropBlankEnd_append {items : List (List Char)} (hne : items ≠ [])
    (hitems : ∀ item ∈ items, Unbroken item) (commas : Nat) :
    dropBlankEnd (items ++ List.replicate commas []) = items := by
  obtain ⟨first, items, rfl⟩ := List.exists_cons_of_ne_nil hne
  have hcommas : ∀ item ∈ List.replicate commas ([] : List Char), isBlankText item = true := by
    intro item hitem
    rw [List.eq_of_mem_replicate hitem]
    rfl
  have hlast : items.reverse.dropWhile isBlankText = items.reverse := by
    cases hrev : items.reverse with
    | nil => rfl
    | cons last rest =>
        have hmem : last ∈ first :: items :=
          List.mem_cons_of_mem _ (List.mem_reverse.mp (hrev ▸ List.mem_cons_self ..))
        obtain ⟨c, hc, hblank⟩ := head?_not_blank (hitems last hmem) []
        have hc := List.mem_of_head? hc
        rw [List.append_nil] at hc
        refine List.dropWhile_cons_of_neg fun hall => ?_
        rw [isBlankText, List.all_eq_true] at hall
        rw [hall c hc] at hblank
        cases hblank
  rw [List.cons_append, dropBlankEnd, List.reverse_append, List.reverse_replicate,
    List.dropWhile_append_of_pos hcommas, hlast, List.reverse_reverse]

/-- What is taken from the end of a list without blanks is commas. -/
theorem exists_commas {items : List (List Char)} (hne : items ≠ [])
    (hitems : ∀ item ∈ items, ∀ c ∈ item, isBlank c = false) :
    dropBlankEnd items ≠ [] ∧ ∃ commas, items = dropBlankEnd items ++ List.replicate commas [] := by
  obtain ⟨first, items, rfl⟩ := List.exists_cons_of_ne_nil hne
  refine ⟨List.cons_ne_nil _ _, (items.reverse.takeWhile isBlankText).length, ?_⟩
  have hdropped : (items.reverse.takeWhile isBlankText).reverse =
      List.replicate (items.reverse.takeWhile isBlankText).length [] := by
    rw [← List.reverse_replicate, List.reverse_inj]
    refine List.eq_replicate_of_mem fun item hitem => ?_
    have hblank := List.mem_takeWhile_imp hitem
    have hmem := List.mem_reverse.mp (List.takeWhile_subset _ hitem)
    exact eq_nil_of_head? (List.all_eq_true.mp hblank)
      fun c hc => hitems item (List.mem_cons_of_mem _ hmem) c (List.mem_of_head? hc)
  rw [dropBlankEnd, List.cons_append, ← hdropped, ← List.reverse_append,
    List.takeWhile_append_dropWhile, List.reverse_reverse]

theorem unquote?_eq_some_iff : unquote? value = some t ↔ value = '\'' :: (t ++ ['\'']) := by
  constructor
  · intro hread
    unfold unquote? at hread
    split at hread
    · next rest =>
      split at hread
      · next hlast =>
        cases hread
        obtain ⟨front, rfl⟩ := List.getLast?_eq_some_iff.mp hlast
        rw [List.dropLast_concat]
      · cases hread
    · cases hread
  · rintro rfl
    simp [unquote?]

/-- The value that a directive gives to a variable. -/
def Directive.contents? (d : Directive) (value : List Char) : Option Contents :=
  match d with
  | .const => none
  | .dword => (literal? value).map .dword
  | .bytes => ((dropBlankEnd (pieces (· == ',') value)).mapM literal?).map .bytes
  | .string => (unquote? value).map .string

theorem Directive.ofWord?_eq_some_iff {word : String} {d : Directive} :
    ofWord? word = some d ↔ word = d.word := by
  constructor
  · intro hfind
    exact (eq_of_beq (List.find?_some hfind :)).symm
  · rintro rfl
    cases d <;> rfl

/-- The items of a list spell its bytes. -/
theorem mapM_literal?_pieces_iff {values : List Word} (hplain : ∀ c ∈ value, isBlank c = false) :
    (dropBlankEnd (pieces (· == ',') value)).mapM literal? = some values ↔
      ∃ items commas, items ≠ [] ∧ Joins ',' (items ++ List.replicate commas []) value ∧
        List.Forall₂ Spells items values := by
  rw [mapM_eq_some_iff]
  constructor
  · intro hread
    have hpieces : ∀ item ∈ pieces (· == ',') value, ∀ c ∈ item, isBlank c = false :=
      fun item hitem c hc => hplain c (intercalate_pieces ',' value ▸ mem_intercalate hitem hc)
    obtain ⟨hne, commas, hcommas⟩ := exists_commas (pieces_ne_nil _ value) hpieces
    refine ⟨_, commas, hne, joins_iff.mpr hcommas, ?_⟩
    generalize dropBlankEnd (pieces (· == ',') value) = items at hread hcommas
    rw [hcommas] at hpieces
    have hplain := fun item h => hpieces item (List.mem_append_left _ h)
    exact ((List.forall₂_and_left _ _).mpr ⟨hplain, hread⟩).imp fun _ _ h =>
      (literal?_of_not_blank_iff h.1).mp h.2
  · rintro ⟨items, commas, hne, hvalue, hitems⟩
    rw [joins_iff.mp hvalue, dropBlankEnd_append hne (unbroken_of_spelled hitems)]
    exact hitems.imp fun _ _ h => (literal?_of_not_blank_iff h.unbroken.2).mpr h

/-- A value that is read is the one that is written. -/
theorem contents?_eq_some_iff {word : String} {contents : Contents}
    (hplain : word ≠ ".string" → ∀ c ∈ value, isBlank c = false) :
    ((Directive.ofWord? word).bind fun d => d.contents? value) = some contents ↔
      Gives word value contents := by
  rw [Option.bind_eq_some_iff]
  constructor
  · rintro ⟨d, hd, hcontents⟩
    obtain rfl := Directive.ofWord?_eq_some_iff.mp hd
    cases d with
    | const => cases hcontents
    | dword =>
        obtain ⟨w, hw, rfl⟩ := Option.map_eq_some_iff.mp hcontents
        exact .dword ((literal?_of_not_blank_iff (hplain (by decide))).mp hw)
    | bytes =>
        obtain ⟨values, hvalues, rfl⟩ := Option.map_eq_some_iff.mp hcontents
        obtain ⟨items, commas, hne, hjoins, hitems⟩ :=
          (mapM_literal?_pieces_iff (hplain (by decide))).mp hvalues
        exact .bytes commas hne hjoins hitems
    | string =>
        obtain ⟨text, htext, rfl⟩ := Option.map_eq_some_iff.mp hcontents
        obtain rfl := unquote?_eq_some_iff.mp htext
        exact .string text
  · intro hgives
    cases hgives with
    | dword hw =>
        refine ⟨.dword, rfl, ?_⟩
        rw [Directive.contents?, (literal?_of_not_blank_iff hw.unbroken.2).mpr hw]
        rfl
    | bytes commas hne hvalue hitems =>
        refine ⟨.bytes, rfl, ?_⟩
        rw [Directive.contents?, (mapM_literal?_pieces_iff (hplain (by decide))).mpr
          ⟨_, commas, hne, hvalue, hitems⟩]
        rfl
    | string text =>
        exact ⟨.string, rfl, Option.map_eq_some_iff.mpr ⟨text, unquote?_eq_some_iff.mpr rfl, rfl⟩⟩

/-! ## Reading a line -/

/-- The variable that a source line declares, if it does. -/
def Block.ofLine? (raw : List Char) : Option Block :=
  match splitDirective? (trim (stripComment raw)) with
  | none => none
  | some (word, name, value) =>
    ((Directive.ofWord? word).bind fun d => d.contents? value).map (Block.mk name)

theorem holds_trim_stripComment (line : List Char) : Holds line (trim (stripComment line)) := by
  obtain ⟨l, r, hcode, hl, hr⟩ := (trims_iff.mpr (rfl : trim (stripComment line) = _)).exists_blanks
  refine ⟨l, r, line.dropWhile (· != '#'), ?_, hl, hr, ?_⟩
  · rw [← hcode, stripComment, List.takeWhile_append_dropWhile]
  · cases hcomment : line.dropWhile (· != '#') with
    | nil => exact Or.inl rfl
    | cons c comment =>
        have hstop := List.head?_dropWhile_not (· != '#') line
        rw [hcomment] at hstop
        right
        simpa using hstop

theorem hash_notMem_trim_stripComment (line : List Char) : '#' ∉ trim (stripComment line) := by
  obtain ⟨l, r, hcode, -, -⟩ := (trims_iff.mpr (rfl : trim (stripComment line) = _)).exists_blanks
  intro hmem
  have hmem : '#' ∈ stripComment line := by
    rw [hcode]
    exact List.mem_append_left _ (List.mem_append_right _ hmem)
  simpa using List.mem_takeWhile_imp hmem

theorem head?_trim (hc : isBlank c = false) (s : List Char) : (trim (c :: s)).head? = some c := by
  rw [trim, trimStart, List.dropWhile_cons_of_neg (by simp [hc]), trimEnd, List.reverse_cons,
    List.dropWhile_append]
  split <;> simp [hc]

/-- The kind of a line is told from its first character. -/
theorem isData_iff : IsData line ↔
    trim (stripComment line) = [] ∨ (trim (stripComment line)).head? = some '.' := by
  constructor
  · rintro (hblank | ⟨rest, l, r, comment, rfl, hl, -, -⟩)
    · exact Or.inl (trim_stripComment hblank List.not_mem_nil)
    · right
      have hplain : ∀ c ∈ l, (c != '#') = true := fun c hc => by simp [ne_hash_of_blank (hl c hc)]
      rw [List.append_assoc, List.append_assoc, stripComment, List.takeWhile_append_of_pos hplain,
        List.cons_append, List.takeWhile_cons_of_pos (by decide)]
      have hends := trim_append_append hl (List.forall_mem_nil _)
      simp only [List.append_nil] at hends
      rw [hends, head?_trim (by decide)]
  · have hholds := holds_trim_stripComment line
    rintro (hblank | hdot)
    · exact Or.inl (hblank ▸ hholds)
    · obtain ⟨rest, hrest⟩ := List.head?_eq_some_iff.mp hdot
      exact Or.inr ⟨rest, hrest ▸ hholds⟩

instance (line : List Char) : Decidable (IsData line) := decidable_of_iff _ isData_iff.symm

/-- A list of bytes has no blanks in it. -/
theorem unbroken_of_joins {items : List (List Char)} {commas : Nat} (hne : items ≠ [])
    (hitems : ∀ item ∈ items, Unbroken item)
    (hvalue : Joins ',' (items ++ List.replicate commas []) value) : Unbroken value := by
  obtain ⟨-, -, rfl⟩ := hvalue
  obtain ⟨first, items, rfl⟩ := List.exists_cons_of_ne_nil hne
  have hfirst := hitems first (List.mem_cons_self ..)
  obtain ⟨c, hc⟩ := List.exists_mem_of_ne_nil first hfirst.1
  refine ⟨List.ne_nil_of_mem (mem_intercalate (List.mem_cons_self ..) hc), fun c hc => ?_⟩
  rcases mem_of_mem_intercalate hc with rfl | ⟨item, hitem, hc⟩
  · decide
  · rcases List.mem_append.mp hitem with hitem | hitem
    · exact (hitems item hitem).2 c hc
    · rw [List.eq_of_mem_replicate hitem] at hc
      cases hc

/-- The word of a directive begins with a dot; there are no blanks in it and no comment. -/
theorem Gives.word_shape {word : String} {contents : Contents}
    (hgives : Gives word value contents) :
    word.toList.head? = some '.' ∧ Unbroken word.toList ∧ '#' ∉ word.toList := by
  have hwords : ∀ word ∈ [".dword", ".bytes", ".string"], word.toList.head? = some '.' ∧
      (word.toList.all fun c => !isBlank c && c != '#') = true := by
    decide +kernel
  have hword : word ∈ [".dword", ".bytes", ".string"] := by cases hgives <;> simp
  obtain ⟨hdot, hall⟩ := hwords word hword
  simp only [List.all_eq_true, Bool.and_eq_true, bne_iff_ne, Bool.not_eq_true'] at hall
  refine ⟨hdot, ⟨?_, fun c hc => (hall c hc).1⟩, fun hmem => (hall _ hmem).2 rfl⟩
  intro hnil
  rw [hnil] at hdot
  cases hdot

/-- A value begins and ends with a character that is no blank, and only a text has blanks in it. -/
theorem Gives.value_shape {word : String} {contents : Contents}
    (hgives : Gives word value contents) :
    value ≠ [] ∧ Trims value value ∧ (word ≠ ".string" → ∀ c ∈ value, isBlank c = false) := by
  cases hgives with
  | dword hvalue =>
      obtain ⟨hne, hplain⟩ := hvalue.unbroken
      exact ⟨hne, trims_self_of_not_blank hplain, fun _ => hplain⟩
  | bytes commas hne hvalue hitems =>
      obtain ⟨hne, hplain⟩ := unbroken_of_joins hne (unbroken_of_spelled hitems) hvalue
      exact ⟨hne, trims_self_of_not_blank hplain, fun _ => hplain⟩
  | string text =>
      refine ⟨List.cons_ne_nil _ _, trims_self ?_ ?_, fun hother => absurd rfl hother⟩
      · rintro c ⟨⟩
        decide
      · intro c hc
        rw [← List.cons_append, List.getLast?_concat] at hc
        cases hc
        decide

/-- What is cut from a line that declares a variable. -/
theorem Block.On.exists_split {raw : List Char} {b : Block} (hline : b.On raw) :
    ∃ word value rest, trim (stripComment raw) = '.' :: rest ∧
      splitDirective? (trim (stripComment raw)) = some (word, b.name, value) ∧
      Gives word value b.contents := by
  obtain @⟨word, gap, gap', value, hholds, hgap, hgap', hname, hhash, hvalue⟩ := hline
  obtain ⟨hdot, hword, hwordhash⟩ := hvalue.word_shape
  obtain ⟨hne, htrims, hplain⟩ := hvalue.value_shape
  have hparts : Parts (word.toList ++ gap ++ b.name.toList ++ gap' ++ value) word b.name value :=
    ⟨⟨gap, gap', rfl, hgap, hgap'⟩, hword, hname, hne, htrims, hplain⟩
  have hclean : '#' ∉ word.toList ++ gap ++ b.name.toList ++ gap' ++ value := by
    simp only [List.mem_append, not_or]
    exact ⟨⟨⟨⟨hwordhash, hgap.hash_notMem⟩, hhash.1⟩, hgap'.hash_notMem⟩, hhash.2⟩
  rw [trim_stripComment hholds hclean, trims_iff.mp hparts.trims]
  obtain ⟨rest, hrest⟩ := List.head?_eq_some_iff.mp hdot
  refine ⟨word, value, rest ++ gap ++ b.name.toList ++ gap' ++ value, ?_,
    splitDirective?_of_parts hparts, hvalue⟩
  rw [hrest]
  rfl

/-- A line that is read declares the variable, and no other line does. -/
theorem Block.ofLine?_eq_some_iff {raw : List Char} {b : Block} :
    ofLine? raw = some b ↔ b.On raw := by
  constructor
  · intro hread
    unfold ofLine? at hread
    split at hread
    · cases hread
    · next word name value hsplit =>
      obtain ⟨contents, hcontents, rfl⟩ := Option.map_eq_some_iff.mp hread
      have hholds := holds_trim_stripComment raw
      have hhash := hash_notMem_trim_stripComment raw
      obtain ⟨-, hfirst, hlast⟩ := trims_iff.mpr (rfl : trim (stripComment raw) = _)
      have hparts := parts_of_splitDirective? (trims_self hfirst hlast) hsplit
      obtain ⟨gap, gap', hbody, hgap, hgap'⟩ := hparts.exists_gaps
      have hgives := (contents?_eq_some_iff hparts.value_plain).mp hcontents
      rw [hbody] at hholds hhash
      refine .intro hholds hgap hgap' hparts.unbroken_name ?_ hgives
      simp only [List.mem_append, not_or] at hhash
      exact ⟨hhash.1.1.2, hhash.2⟩
  · intro hline
    obtain ⟨word, value, rest, -, hsplit, hvalue⟩ := hline.exists_split
    simp only [ofLine?, hsplit, (contents?_eq_some_iff hvalue.value_shape.2.2).mpr hvalue,
      Option.map_some]

theorem linesDeclare_iff {raws : List (List Char)} {bs : List Block} :
    LinesDeclare raws bs ↔ raws.filterMap Block.ofLine? = bs := by
  constructor
  · intro hdeclare
    induction hdeclare with
    | nil => rfl
    | other hnone hrest ih =>
        rw [List.filterMap_cons_none, ih]
        exact Option.eq_none_iff_forall_ne_some.mpr fun b hb =>
          hnone b (Block.ofLine?_eq_some_iff.mp hb)
    | block hline hrest ih =>
        rw [List.filterMap_cons_some (Block.ofLine?_eq_some_iff.mpr hline), ih]
  · rintro rfl
    induction raws with
    | nil => exact .nil
    | cons raw raws ih =>
        cases hline : Block.ofLine? raw with
        | none =>
            rw [List.filterMap_cons_none hline]
            refine .other (fun b hb => ?_) ih
            rw [Block.ofLine?_eq_some_iff.mpr hb] at hline
            cases hline
        | some b =>
            rw [List.filterMap_cons_some hline]
            exact .block (Block.ofLine?_eq_some_iff.mp hline) ih

end WordMachine.Assembly
