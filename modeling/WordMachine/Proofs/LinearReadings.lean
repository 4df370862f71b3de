import Mathlib.Data.List.Forall2
import Mathlib.Order.Bounds.Defs
import WordMachine.Flow.Report
import WordMachine.Proofs.Outcome

/-!
# The linear readings of a program agree

A program is read from its first word on in several places, and they differ in what they do with a
word at which no whole instruction starts: `walk` fails there, `Program.starts` marks it and stops,
and listings show it by itself and go on.  `linear_readings_agree` says how far these readings are
the same, for any sequence of words: all of them up to the first such word, and the listings, with
or without the remarks of a report, to the end.
-/

namespace WordMachine

variable {words : Array Word} {p : Program} {i : Nat}

/-! ## The lines of a listing -/

theorem itemsFrom_of_lt (hlt : i < words.size) :
    itemsFrom words i =
      itemAt words i words[i] :: itemsFrom words (i + (itemAt words i words[i]).width) := by
  rw [itemsFrom, dif_pos hlt]

theorem itemsFrom_of_le (hle : words.size ≤ i) : itemsFrom words i = [] := by
  rw [itemsFrom, dif_neg (Nat.not_lt.mpr hle)]

@[simp] theorem position_itemAt (words : Array Word) (i : Nat) (w : Word) :
    (itemAt words i w).position = i := by
  unfold itemAt
  split
  · next d hdecode => exact position_of_decode? hdecode
  · rfl

/-- A line shows the words that stand at its position. -/
theorem words_itemAt (hlt : i < words.size) :
    (itemAt words i words[i]).words =
      (words.toList.drop i).take (itemAt words i words[i]).width := by
  refine List.ext_getElem? fun k => ?_
  by_cases hk : k < (itemAt words i words[i]).width
  · have hword : words.toList[i + k]? = words[i + k]? := Array.getElem?_toList
    rw [List.getElem?_take_of_lt hk, List.getElem?_drop, hword]
    cases hdecode : decode? words i with
    | some d =>
        simp only [itemAt, hdecode] at hk ⊢
        exact ((getElem?_of_decode? hdecode).2 k hk).symm
    | none =>
        simp only [itemAt, hdecode] at hk ⊢
        obtain rfl : k = 0 := Nat.lt_one_iff.mp hk
        exact (Array.getElem?_eq_getElem hlt).symm
  · have hshown : (itemAt words i words[i]).words.length ≤ k := by
      rw [Item.length_words]
      exact Nat.not_lt.mp hk
    have htaken : ((words.toList.drop i).take (itemAt words i words[i]).width).length ≤ k :=
      Nat.le_trans (List.length_take_le ..) (Nat.not_lt.mp hk)
    rw [List.getElem?_eq_none hshown, List.getElem?_eq_none htaken]

/-- A line does not go beyond the end of the program. -/
theorem add_width_itemAt_le (hlt : i < words.size) :
    i + (itemAt words i words[i]).width ≤ words.size := by
  cases hdecode : decode? words i with
  | some d =>
      obtain rfl := position_of_decode? hdecode
      simp only [itemAt, hdecode]
      exact next_le_size_of_decode? hdecode
  | none =>
      simp only [itemAt, hdecode]
      exact hlt

/-- The lines of a listing show every word once. -/
theorem flatMap_words_itemsFrom (words : Array Word) (i : Nat) :
    (itemsFrom words i).flatMap Item.words = words.toList.drop i := by
  fun_induction itemsFrom words i with
  | case1 i hlt x ih =>
      rw [List.flatMap_cons, ih, words_itemAt hlt, ← List.drop_drop, List.take_append_drop]
  | case2 i hge =>
      rw [List.flatMap_nil, List.drop_eq_nil_of_le (by simpa using hge)]

theorem le_position_of_mem_itemsFrom {x : Item} (hx : x ∈ itemsFrom words i) : i ≤ x.position := by
  fun_induction itemsFrom words i with
  | case1 i hlt y ih =>
      rcases List.mem_cons.mp hx with rfl | hx
      · exact Nat.le_of_eq (position_itemAt ..).symm
      · exact Nat.le_trans (Nat.le_add_right ..) (ih hx)
  | case2 i hge => cases hx

theorem pairwise_position_itemsFrom (words : Array Word) (i : Nat) :
    ((itemsFrom words i).map Item.position).Pairwise (· < ·) := by
  fun_induction itemsFrom words i with
  | case1 i hlt x ih =>
      rw [List.map_cons]
      refine .cons ?_ ih
      intro j hj
      obtain ⟨y, hy, rfl⟩ := List.mem_map.mp hj
      have hle := le_position_of_mem_itemsFrom hy
      have hpos := x.width_pos
      have hposition : x.position = i := position_itemAt ..
      omega
  | case2 i hge => exact .nil

/-! ## Listings and the reading by instructions -/

/-- Code that falls into instructions is listed instruction by instruction. -/
theorem itemsFrom_of_reads {code : List Instruction} (hreads : Reads words i code) :
    itemsFrom words i = code.map .instruction := by
  induction hreads with
  | done => exact itemsFrom_of_le (Nat.le_refl _)
  | @step i d code hdecode hrest ih =>
      obtain rfl := position_of_decode? hdecode
      have hlt := position_lt_size_of_decode? hdecode
      have hitem : itemAt words d.position words[d.position] = .instruction d := by
        simp only [itemAt, hdecode]
      rw [itemsFrom_of_lt hlt, hitem, List.map_cons]
      exact congrArg (_ :: ·) ih

/-- Where a reading fails. -/
def ProgramError.position : ProgramError → Nat
  | .unknownOpcode i _ => i
  | .truncated i _ => i

/-- A word at which no whole instruction starts is listed by itself. -/
theorem itemsFrom_of_decode?_none (hlt : i < words.size) (hdecode : decode? words i = none) :
    itemsFrom words i = .stray i words[i] :: itemsFrom words (i + 1) := by
  have hitem : itemAt words i words[i] = .stray i words[i] := by simp only [itemAt, hdecode]
  rw [itemsFrom_of_lt hlt, hitem]
  rfl

/-- Where the reading by instructions fails, a listing has shown instructions so far and shows a
word by itself; and this word is the last one that is marked as an instruction start. -/
theorem itemsFrom_of_walkFrom_error {e : ProgramError} (hwalk : walkFrom words i = .error e) :
    ∃ (code : List Instruction) (w : Word) (rest : List Item),
      itemsFrom words i = code.map .instruction ++ .stray e.position w :: rest ∧
      Program.startsFrom words i = code.map Instruction.position ++ [e.position] := by
  fun_induction walkFrom words i with
  | case1 i hlt hop =>
      cases hwalk
      have hdecode : decode? words i = none := decode?_of_not_opcode (by simp [hlt, hop])
      refine ⟨[], words[i], _, itemsFrom_of_decode?_none hlt hdecode, ?_⟩
      rw [Program.startsFrom, dif_pos hlt, hop]
      rfl
  | case2 i hlt op hop hwhole ih =>
      obtain ⟨d, hdecode, rfl⟩ :=
        exists_decode?_of_opcode (by simp [hlt, hop] : words[i]?.bind Op.ofOpcode? = some op) hwhole
      obtain rfl := position_of_decode? hdecode
      have hnext := d.add_operandCount_eq_next
      cases hrest : walkFrom words (d.position + 1 + d.op.operandCount) with
      | ok starts => rw [hrest] at hwalk; cases hwalk
      | error e' =>
          rw [hrest] at hwalk
          cases hwalk
          obtain ⟨code, w, rest, hitems, hstarts⟩ := ih hrest
          have hitem : itemAt words d.position words[d.position] = .instruction d := by
            simp only [itemAt, hdecode]
          refine ⟨d :: code, w, rest, ?_, ?_⟩
          · rw [itemsFrom_of_lt hlt, hitem, List.map_cons, List.cons_append, ← hitems, hnext]
            rfl
          · rw [Program.startsFrom, dif_pos hlt, hop]
            simp only [hstarts, List.map_cons, List.cons_append]
  | case3 i hlt op hop hcut =>
      cases hwalk
      have hopcode : words[i]?.bind Op.ofOpcode? = some op := by simp [hlt, hop]
      have hdecode : decode? words i = none := by
        rw [← Option.not_isSome_iff_eq_none, isSome_decode?]
        rintro ⟨op', hop', hwhole⟩
        rw [hopcode, Option.some.injEq] at hop'
        subst hop'
        exact hcut hwhole
      refine ⟨[], words[i], _, itemsFrom_of_decode?_none hlt hdecode, ?_⟩
      -- the operands that are missing put the next position behind the end
      rw [Program.startsFrom, dif_pos hlt, hop]
      simp only
      rw [Program.startsFrom, dif_neg (by omega)]
      rfl
  | case4 i hge => cases hwalk

/-! ## The texts of the lines -/

/-- The text of a line that shows a word by itself. -/
def ShowsWord (text : String) : Prop := ".word ".toList <+: text.toList

theorem Op.exists_mnemonic (op : Op) : ∃ c rest, op.mnemonic.toList = c :: rest ∧ c ≠ '.' := by
  have hall : (all.all fun op => op.mnemonic.toList.head?.any (· != '.')) = true := by
    decide +kernel
  have hop := List.all_eq_true.mp hall op (mem_all op)
  cases hlist : op.mnemonic.toList with
  | nil => simp [hlist] at hop
  | cons c rest =>
      refine ⟨c, rest, rfl, ?_⟩
      simpa [hlist] using hop

theorem not_showsWord_instruction (d : Instruction) : ¬ ShowsWord d.text := by
  obtain ⟨c, rest, hmnemonic, hne⟩ := d.op.exists_mnemonic
  intro hprefix
  rw [ShowsWord, Instruction.text, String.toList_append, hmnemonic] at hprefix
  exact hne (List.cons_prefix_cons.mp hprefix).1.symm

theorem showsWord_stray (i : Nat) (w : Word) : ShowsWord (Item.stray i w).text := by
  refine ⟨(wordText w).toList, ?_⟩
  exact String.toList_append.symm

/-! ## The lines of a report -/

/-- How the text of a line in a report comes from the text in the listing: the name of a target and
a remark may follow it. -/
def Remarked (names : List String) (plain shown : String) : Prop :=
  ∃ target remark, shown = plain ++ target ++ remark ∧
    (target = "" ∨ ∃ name ∈ names, target = " <" ++ name ++ ">") ∧
    (remark = "" ∨ remark = "  ; unreachable")

namespace Flow

theorem mem_named_of_name? {labels : LabelMap} {t : Nat} {name : String}
    (hname : labels.name? t = some name) : name ∈ labels.named.map Prod.snd := by
  obtain ⟨kind, hkind, rfl⟩ := Option.map_eq_some_iff.mp hname
  rw [LabelMap.named, List.map_map]
  exact List.mem_map.mpr ⟨(t, kind), Std.TreeMap.mem_toList_iff_getElem?_eq_some.mpr hkind, rfl⟩

/-- The name of a line's target, as a report adds it to the line. -/
def itemRemark (labels : LabelMap) : Item → String
  | .instruction d => targetRemark labels d
  | .stray _ _ => ""

/-- The line of a report that belongs to a line of the listing. -/
def reportLine (c : CodeMap) (a : Analysis) (labels : LabelMap) (x : Item) : ReportLine :=
  { position := x.position
    words := x.words
    text := x.text ++ itemRemark labels x ++
      if a.misses c x.position then unreachableRemark else ""
    label := labels.name? x.position }

theorem shownAt_eq (labels : LabelMap) (words : Array Word) (i : Nat) (w : Word) :
    shownAt labels words i w =
      ((itemAt words i w).width, (itemAt words i w).text ++ itemRemark labels (itemAt words i w)) := by
  unfold shownAt itemAt
  cases decode? words i with
  | some d => rfl
  | none => exact congrArg (Prod.mk 1) String.append_empty.symm

/-- A report goes from line to line as the listing does, and shows the same words. -/
theorem reportLinesFrom_eq (c : CodeMap) (a : Analysis) (labels : LabelMap) (i : Nat) :
    reportLinesFrom c a labels i = (itemsFrom c.program.words i).map (reportLine c a labels) := by
  fun_induction itemsFrom c.program.words i with
  | case1 i hlt x ih =>
      have hposition : x.position = i := position_itemAt ..
      have hshown : shownAt labels c.program.words i c.program.words[i] =
          (x.width, x.text ++ itemRemark labels x) := shownAt_eq ..
      -- the end of the program does not cut the line short
      have hstop : min (i + x.width) c.program.words.size = i + x.width :=
        Nat.min_eq_left (add_width_itemAt_le hlt)
      have hwords : (c.program.words.extract i (i + x.width)).toList = x.words := by
        rw [Array.toList_extract, List.extract_eq_drop_take, Nat.add_sub_cancel_left]
        exact (words_itemAt hlt).symm
      rw [reportLinesFrom, dif_pos hlt, List.map_cons, ← ih]
      simp only [hshown, hstop, hwords, reportLine, hposition]
  | case2 i hge => rw [reportLinesFrom, dif_neg hge, List.map_nil]

theorem listing_report_eq (c : CodeMap) (entries : List Nat) (budget : Nat) :
    (report c entries budget).listing = c.program.items.map (reportLine c
      (analyze c entries budget)
      (LabelMap.ofEdges c (analyze c entries budget).edges.toList entries)) :=
  reportLinesFrom_eq ..

theorem itemRemark_cases (labels : LabelMap) (x : Item) :
    itemRemark labels x = "" ∨
      ∃ name ∈ labels.named.map Prod.snd, itemRemark labels x = " <" ++ name ++ ">" := by
  cases x with
  | stray i w => exact Or.inl rfl
  | instruction d =>
      cases hname : d.target?.bind labels.name? with
      | none =>
          left
          simp only [itemRemark, targetRemark, hname]
      | some name =>
          right
          obtain ⟨t, -, htarget⟩ := Option.bind_eq_some_iff.mp hname
          exact ⟨name, mem_named_of_name? htarget, by simp only [itemRemark, targetRemark, hname]⟩

theorem remarked_reportLine (c : CodeMap) (a : Analysis) (labels : LabelMap) (x : Item) :
    Remarked (labels.named.map Prod.snd) x.text (reportLine c a labels x).text := by
  refine ⟨_, _, rfl, itemRemark_cases labels x, ?_⟩
  split
  · exact Or.inr rfl
  · exact Or.inl rfl

/-- The lines of a report are those of the listing, with remarks. -/
theorem listing_report (p : Program) (entries : List Nat) (budget : Nat) :
    (report (CodeMap.ofProgram p) entries budget).listing.map ReportLine.position =
        p.listing.map Prod.fst ∧
      (report (CodeMap.ofProgram p) entries budget).listing.flatMap ReportLine.words =
        p.words.toList ∧
      List.Forall₂ (fun x line =>
          Remarked ((report (CodeMap.ofProgram p) entries budget).labels.map Prod.snd) x.2
            line.text)
        p.listing (report (CodeMap.ofProgram p) entries budget).listing := by
  rw [listing_report_eq]
  refine ⟨?_, ?_, ?_⟩
  · rw [Program.listing, List.map_map, List.map_map]
    rfl
  · rw [List.flatMap_map]
    exact flatMap_words_itemsFrom p.words 0
  · rw [Program.listing, List.forall₂_map_left_iff, List.forall₂_map_right_iff]
    exact List.forall₂_same.mpr fun x _ => remarked_reportLine ..

end Flow

/-! ## Marks in ascending order -/

namespace Marks

theorem pairwise_toList (m : Marks) : m.toList.Pairwise (· < ·) := List.pairwise_lt_range.filter _

/-- The marks of an ascending list are listed in its order. -/
theorem toList_ofList {n : Nat} {positions : List Nat} (hsorted : positions.Pairwise (· < ·))
    (hlt : ∀ i ∈ positions, i < n) : (ofList n positions).toList = positions := by
  have hnodup : ∀ {l : List Nat}, l.Pairwise (· < ·) → l.Nodup := fun h => h.imp Nat.ne_of_lt
  have hperm : (ofList n positions).toList.Perm positions := by
    rw [List.perm_ext_iff_of_nodup (hnodup (pairwise_toList _)) (hnodup hsorted)]
    intro i
    rw [mem_toList, has_ofList]
    exact and_iff_left_of_imp (hlt i)
  refine hperm.eq_of_pairwise ?_ (pairwise_toList _) hsorted
  intro i j _ _ hij hji
  exact absurd hij (Nat.lt_asymm hji)

end Marks

/-! ## The readings -/

/-- Code begins at the position of its first instruction, or at the end if there is none. -/
theorem Reads.eq_getD_head {code : List Instruction} (hreads : Reads words i code) :
    i = ((code.map Instruction.position)[0]?).getD words.size := by
  cases hreads with
  | done => rfl
  | step hdecode hrest => exact (position_of_decode? hdecode).symm

/-- Every instruction reaches to the next one, and the last one to the end of the code. -/
theorem Reads.next_eq_getD {code : List Instruction} (hreads : Reads words i code) {k : Nat}
    {d : Instruction} (hk : code[k]? = some d) :
    d.next = ((code.map Instruction.position)[k + 1]?).getD words.size := by
  induction hreads generalizing k with
  | done => cases hk
  | @step i head code hdecode hrest ih =>
      cases k with
      | zero =>
          obtain rfl : head = d := Option.some.inj hk
          exact hrest.eq_getD_head
      | succ k => exact ih hk

theorem fst_listing (p : Program) : p.listing.map Prod.fst = p.items.map Item.position := by
  rw [Program.listing, List.map_map]
  rfl

theorem pairwise_listing (p : Program) : (p.listing.map Prod.fst).Pairwise (· < ·) := by
  rw [fst_listing]
  exact pairwise_position_itemsFrom p.words 0

theorem check_eq_ok_iff {q : Program} :
    Program.check words = .ok q ↔ q = ⟨words⟩ ∧ ∃ code, Reads words 0 code := by
  constructor
  · intro hcheck
    cases hwalk : walk words with
    | error e => rw [Program.check, hwalk] at hcheck; cases hcheck
    | ok starts =>
        rw [Program.check, hwalk] at hcheck
        cases hcheck
        obtain ⟨code, hreads, -⟩ := walk_eq_ok_iff.mp hwalk
        exact ⟨rfl, code, hreads⟩
  · rintro ⟨rfl, code, hreads⟩
    rw [Program.check, walk_eq_ok_iff.mpr ⟨code, hreads, rfl⟩]
    rfl

theorem walk_of_check_error {e : ProgramError} (hcheck : Program.check words = .error e) :
    walk words = .error e := by
  cases hwalk : walk words with
  | ok starts => rw [Program.check, hwalk] at hcheck; cases hcheck
  | error e' =>
      rw [Program.check, hwalk] at hcheck
      cases hcheck
      rfl

/-- The listing shows the word at a position by itself. -/
def ShowsWordAt (p : Program) (i : Nat) : Prop := ∃ text, (i, text) ∈ p.listing ∧ ShowsWord text

/-- A listing shows a word by itself exactly where it has such an item. -/
theorem showsWordAt_iff : ShowsWordAt p i ↔ ∃ w, Item.stray i w ∈ p.items := by
  constructor
  · rintro ⟨text, hmem, hshows⟩
    obtain ⟨x, hx, heq⟩ := List.mem_map.mp hmem
    obtain ⟨rfl, rfl⟩ := Prod.mk.inj heq
    cases x with
    | instruction d => exact absurd hshows (not_showsWord_instruction d)
    | stray j w => exact ⟨w, hx⟩
  · rintro ⟨w, hw⟩
    exact ⟨_, List.mem_map.mpr ⟨_, hw, rfl⟩, showsWord_stray i w⟩

/-- All the readings of a program find the same instructions, and these are the whole of it. -/
structure ReadAlike (p : Program) : Prop where
  walk_eq : walk p.words = .ok (p.listing.map Prod.fst)
  starts_eq : p.starts.toList = p.listing.map Prod.fst
  /-- At each position of the listing an instruction is found that reaches to the next one, or to
  the end. -/
  reaches : ∀ k i, (p.listing.map Prod.fst)[k]? = some i → ∃ d, decode? p.words i = some d ∧
    i + d.width = ((p.listing.map Prod.fst)[k + 1]?).getD p.size

/-- The marks of the instruction starts list what the reading has found. -/
theorem toList_starts (p : Program) : p.starts.toList = Program.startsFrom p.words 0 :=
  Marks.toList_ofList (Program.pairwise_startsFrom ..)
    fun _ hi => Program.lt_size_of_mem_startsFrom hi

section Whole

variable {code : List Instruction}

theorem items_of_reads (hreads : Reads p.words 0 code) : p.items = code.map .instruction :=
  itemsFrom_of_reads hreads

theorem fst_listing_of_reads (hreads : Reads p.words 0 code) :
    p.listing.map Prod.fst = code.map Instruction.position := by
  rw [fst_listing, items_of_reads hreads, List.map_map]
  rfl

theorem not_showsWordAt_of_reads (hreads : Reads p.words 0 code) : ¬ ShowsWordAt p i := by
  intro hshows
  obtain ⟨w, hw⟩ := showsWordAt_iff.mp hshows
  rw [items_of_reads hreads] at hw
  obtain ⟨d, -, heq⟩ := List.mem_map.mp hw
  cases heq

theorem readAlike_of_reads (hreads : Reads p.words 0 code) : ReadAlike p := by
  have hlisting := fst_listing_of_reads hreads
  refine ⟨?_, ?_, ?_⟩
  · rw [hlisting]
    exact walkFrom_of_reads hreads
  · rw [hlisting, toList_starts]
    exact startsFrom_of_reads hreads
  · intro k i hk
    rw [hlisting, List.getElem?_map] at hk
    obtain ⟨d, hd, rfl⟩ := Option.map_eq_some_iff.mp hk
    refine ⟨d, hreads.decode?_of_mem (List.mem_of_getElem? hd), ?_⟩
    rw [hlisting]
    exact hreads.next_eq_getD hd

end Whole

/-- In an ascending list, the elements up to one of them are those before it and itself. -/
theorem filter_le_of_split {l before after : List Nat} (hsplit : l = before ++ i :: after)
    (hsorted : l.Pairwise (· < ·)) : l.filter (· ≤ i) = before ++ [i] := by
  rw [hsplit] at hsorted ⊢
  obtain ⟨-, hrest, hacross⟩ := List.pairwise_append.mp hsorted
  have hbefore : before.filter (· ≤ i) = before := by
    refine List.filter_eq_self.mpr fun j hj => ?_
    exact decide_eq_true (Nat.le_of_lt (hacross j hj i (List.mem_cons_self ..)))
  have hafter : after.filter (· ≤ i) = [] := by
    refine List.filter_eq_nil_iff.mpr fun j hj => ?_
    have hlt : i < j := List.rel_of_pairwise_cons hrest hj
    simpa using hlt
  rw [List.filter_append, hbefore, List.filter_cons_of_pos (by simp), hafter]

/-- Where the reading by instructions fails, the listing shows its first word by itself, and the
instruction starts are the positions of the listing up to there. -/
theorem readings_of_check_error {e : ProgramError} (hcheck : Program.check p.words = .error e) :
    IsLeast {i | ShowsWordAt p i} e.position ∧
      p.starts.toList = (p.listing.map Prod.fst).filter (· ≤ e.position) := by
  obtain ⟨code, w, rest, hcode, hstarts⟩ :=
    itemsFrom_of_walkFrom_error (walk_of_check_error hcheck)
  have hitems : p.items = code.map .instruction ++ .stray e.position w :: rest := hcode
  have hsorted := pairwise_listing p
  have hsplit : p.listing.map Prod.fst =
      code.map Instruction.position ++ e.position :: rest.map Item.position := by
    rw [fst_listing, hitems, List.map_append, List.map_cons, List.map_map]
    rfl
  refine ⟨⟨showsWordAt_iff.mpr ⟨w, by simp [hitems]⟩, fun j hj => ?_⟩, ?_⟩
  · -- before the word there are instructions, and behind it the positions are greater
    obtain ⟨v, hv⟩ := showsWordAt_iff.mp hj
    rw [hitems] at hv
    rcases List.mem_append.mp hv with hbefore | hfrom
    · obtain ⟨d, -, heq⟩ := List.mem_map.mp hbefore
      cases heq
    · rcases List.mem_cons.mp hfrom with heq | hafter
      · cases heq
        exact Nat.le_refl _
      · rw [hsplit] at hsorted
        have hrest := (List.pairwise_append.mp hsorted).2.1
        exact Nat.le_of_lt (List.rel_of_pairwise_cons hrest (List.mem_map.mpr ⟨_, hafter, rfl⟩))
  · rw [filter_le_of_split hsplit hsorted, toList_starts]
    exact hstarts

/-- All readings of a sequence of words agree up to the first word at which no whole instruction
starts, and the two listings to the end. -/
theorem linear_readings_agree (p : Program) (entries : List Nat) (budget : Nat) :
    ((p.listing.map Prod.fst).Pairwise (· < ·) ∧
      (Flow.report (.ofProgram p) entries budget).listing.map Flow.ReportLine.position =
        p.listing.map Prod.fst ∧
      (Flow.report (.ofProgram p) entries budget).listing.flatMap Flow.ReportLine.words =
        p.words.toList ∧
      List.Forall₂ (fun x line => Remarked
          ((Flow.report (.ofProgram p) entries budget).labels.map Prod.snd) x.2 line.text)
        p.listing (Flow.report (.ofProgram p) entries budget).listing) ∧
    (((∃ q, Program.check p.words = .ok q) ↔ ∀ i, ¬ ShowsWordAt p i) ∧
      ∀ q, Program.check p.words = .ok q → q = p ∧ ReadAlike p) ∧
    ∀ e, Program.check p.words = .error e →
      IsLeast {i | ShowsWordAt p i} e.position ∧
        p.starts.toList = (p.listing.map Prod.fst).filter (· ≤ e.position) := by
  refine ⟨⟨pairwise_listing p, Flow.listing_report p entries budget⟩, ⟨⟨?_, ?_⟩, ?_⟩, ?_⟩
  · rintro ⟨q, hcheck⟩ i
    obtain ⟨-, code, hreads⟩ := check_eq_ok_iff.mp hcheck
    exact not_showsWordAt_of_reads hreads
  · intro hnone
    cases hcheck : Program.check p.words with
    | ok q => exact ⟨q, rfl⟩
    | error e => exact absurd (readings_of_check_error hcheck).1.1 (hnone e.position)
  · intro q hcheck
    obtain ⟨hq, code, hreads⟩ := check_eq_ok_iff.mp hcheck
    exact ⟨hq, readAlike_of_reads hreads⟩
  · intro e hcheck
    exact readings_of_check_error hcheck

/-- A jump without its operand is listed word by word, and marked as the last instruction start. -/
example :
    (⟨#[31, 19]⟩ : Program).listing = [(0, "retn"), (1, ".word 0x13")] ∧
      (⟨#[31, 19]⟩ : Program).starts.toList = [0, 1] := by
  decide +kernel

end WordMachine
