import WordMachine.Proofs.LabelNames
import WordMachine.Proofs.LinearReadings
import WordMachine.Proofs.Reachability

/-!
# The cross-references of a report

A report is put together from four readings of a program: the listing, which goes on behind a word
that is no opcode; the instruction starts, which end there; the names, which come from the edges of
an analysis and from its entries; and the edges themselves.  `report_cross_referenced` says that
they fit together, whatever the words of the program are and wherever the budget of the analysis has
cut it short.

Two things carry this.  Every instruction start is the position of exactly one line
(`exists_item_of_start`), so a name has a line to stand at.  And the characters `<` and `;` occur in
no text of the plain listing (`lacks_text`), so what a report adds to it can be told from it
(`carries_iff`, `unreachable_suffix_iff`).
-/

namespace WordMachine

variable {p : Program} {words : Array Word} {x : Item} {i : Nat}

/-! ## Characters that do not occur -/

namespace Text

/-- None of certain characters occurs in a text. -/
def Lacks (chars : List Char) (s : String) : Prop := ∀ ch ∈ chars, ch ∉ s.toList

instance (chars : List Char) (s : String) : Decidable (Lacks chars s) :=
  List.decidableBAll (fun ch => ch ∉ s.toList) chars

theorem Lacks.append {chars : List Char} {s t : String} (hs : Lacks chars s)
    (ht : Lacks chars t) : Lacks chars (s ++ t) := by
  intro ch hch
  rw [String.toList_append, List.mem_append, not_or]
  exact ⟨hs ch hch, ht ch hch⟩

theorem lacks_hexPadded (width n : Nat) : Lacks ['<', '>', ';'] (hexPadded width n) := by
  have hdigits : Lacks ['<', '>', ';'] "0123456789abcdef" := by decide
  intro ch hch hmem
  exact hdigits ch hch ((showsHex_hexPadded width n).lowercase ch hmem)

theorem lacks_decimal (i : Int) : Lacks ['<', ';'] (decimal i) := by
  have hchars : ∀ ch ∈ ['<', ';'], ch ≠ '-' ∧ ∀ d < 10, ch ≠ Nat.digitChar d :=
    List.forall_mem_cons.mpr ⟨by decide, List.forall_mem_singleton.mpr (by decide)⟩
  intro ch hch
  exact notMem_decimal (hchars ch hch).1 (hchars ch hch).2 i

/-- A text in angle brackets, with a space before it. -/
def inAngles (name : String) : String := " <" ++ name ++ ">"

theorem mem_of_occurs_inAngles {name s : String}
    (hoccurs : (inAngles name).toList <:+: s.toList) : '<' ∈ s.toList := by
  refine hoccurs.subset ?_
  rw [inAngles, String.toList_append, String.toList_append]
  exact List.mem_append_left _ (List.mem_append_left _ (by decide))

/-- Where there is one text in brackets only, it is the one that is found. -/
theorem eq_of_occurs_inAngles {name real s rest : String} (hs : '<' ∉ s.toList)
    (hreal : Lacks ['<', '>'] real) (hrest : Lacks ['<', '>'] rest)
    (hoccurs : (inAngles name).toList <:+: (s ++ inAngles real ++ rest).toList) :
    name = real := by
  obtain ⟨before, after, heq⟩ := hoccurs
  have hsplit : (s.toList ++ [' ']) ++ '<' :: (real.toList ++ '>' :: rest.toList) =
      (before ++ [' ']) ++ '<' :: (name.toList ++ '>' :: after) := by
    simpa [inAngles] using heq.symm
  have hbefore : '<' ∉ s.toList ++ [' '] := by simpa using hs
  have hbehind : '<' ∉ real.toList ++ '>' :: rest.toList := by
    have := hreal '<' (by decide)
    have := hrest '<' (by decide)
    simp [*]
  obtain ⟨-, -, hinner⟩ := (List.append_cons_inj_of_notMem hbefore hbehind).mp hsplit
  obtain ⟨hname, -, -⟩ := (List.append_cons_inj_of_notMem (hreal '>' (by decide))
    (hrest '>' (by decide))).mp hinner
  exact String.toList_inj.mp hname.symm

end Text

open Text

theorem lacks_wordText (w : Word) : Lacks ['<', ';'] (wordText w) := by
  have hchars : ∀ ch ∈ ['<', ';'], ch ≠ 'x' ∧ ∀ d < 16, ch ≠ Nat.digitChar d :=
    List.forall_mem_cons.mpr ⟨by decide, List.forall_mem_singleton.mpr (by decide)⟩
  intro ch hch
  exact notMem_wordText (hchars ch hch).1 (hchars ch hch).2 w

theorem lacks_registerText (w : Word) : Lacks ['<', ';'] (registerText w) := by
  unfold registerText
  split
  · next r hr => cases r <;> decide
  · exact .append (by decide) (lacks_decimal _)

theorem lacks_decimalSigned (i : Int) : Lacks ['<', ';'] (decimalSigned i) := by
  unfold decimalSigned
  split
  · exact .append (by decide) (lacks_decimal _)
  · exact lacks_decimal _

theorem lacks_arrowText {s : String} (hs : Lacks ['<', ';'] s) (d : Instruction) :
    Lacks ['<', ';'] (d.arrowText.getD s) := by
  unfold Instruction.arrowText
  cases d.target? with
  | none => exact hs
  | some t => exact .append (by decide) (lacks_decimal t)

theorem lacks_mnemonic (op : Op) : Lacks ['<', ';'] op.mnemonic := by
  have hall : ∀ op ∈ Op.all, Lacks ['<', ';'] op.mnemonic := by decide +kernel
  exact hall op op.mem_all

/-- No text of a listing contains the characters with which a report marks what it adds. -/
theorem lacks_text (x : Item) : Lacks ['<', ';'] x.text := by
  cases x with
  | stray i w => exact .append (by decide) (lacks_wordText w)
  | instruction d =>
      refine (lacks_mnemonic d.op).append ?_
      have hspace : Lacks ['<', ';'] " " := by decide
      have hcomma : Lacks ['<', ';'] ", " := by decide
      cases d.op.form with
      | bare => exact (by decide : Lacks ['<', ';'] "")
      | register => exact hspace.append (lacks_registerText _)
      | registerValue =>
          exact ((hspace.append (lacks_registerText _)).append hcomma).append (lacks_wordText _)
      | registerPair =>
          exact ((hspace.append (lacks_registerText _)).append hcomma).append
            (lacks_registerText _)
      | addressValue =>
          exact (((by decide : Lacks ['<', ';'] " [").append (lacks_wordText _)).append
            (by decide)).append (lacks_wordText _)
      | value => exact hspace.append (lacks_wordText _)
      | marker =>
          refine (by decide : Lacks ['<', ';'] " #").append fun ch hch => ?_
          exact lacks_hexPadded 8 _ ch (by simp at hch ⊢; tauto)
      | relative =>
          exact (hspace.append (lacks_decimalSigned _)).append (lacks_arrowText (by decide) d)
      | absolute => exact lacks_arrowText (hspace.append (lacks_wordText _)) d

/-! ## Targets -/

theorem Instruction.target?_eq_some_iff {d : Instruction} {t : Nat} :
    d.target? = some t ↔ d.op.refersToLabel = true ∧ d.destination = t := by
  unfold target?
  rw [Option.ite_none_right_eq_some, Bool.and_eq_true, decide_eq_true_eq, Option.some.injEq,
    and_assoc]
  refine and_congr_right fun _ => ?_
  omega

/-- The edge of a jump or a call tells which of them it is. -/
theorem Flow.exists_follows_of_refersToLabel {d : Instruction} (hop : d.op.refersToLabel = true) :
    ∃ kind, Follows d d.destination kind ∧ (kind ∈ [.call] ∨ kind ∈ [.branch, .condBranch]) := by
  rcases Label.jump_or_call_of_refersToLabel hop with ⟨condition, hjump⟩ | hcall
  · by_cases halways : condition = .always
    · exact ⟨.branch, ⟨halways ▸ hjump, rfl⟩, Or.inr (by decide)⟩
    · exact ⟨.condBranch, ⟨⟨condition, halways, hjump⟩, rfl⟩, Or.inr (by decide)⟩
  · exact ⟨.call, ⟨hcall, rfl⟩, Or.inl (by decide)⟩

/-! ## The lines of a listing -/

theorem exists_itemAt_of_mem (hx : x ∈ itemsFrom words i) :
    ∃ j, ∃ h : j < words.size, x = itemAt words j words[j] := by
  fun_induction itemsFrom words i with
  | case1 i hlt y ih =>
      rcases List.mem_cons.mp hx with rfl | hrest
      · exact ⟨i, hlt, rfl⟩
      · exact ih hrest
  | case2 i hge => cases hx

/-- A line shows the instruction that is found at its position, if there is one. -/
theorem instruction_mem_items {d : Instruction} (hd : .instruction d ∈ p.items) :
    decode? p.words d.position = some d := by
  obtain ⟨j, hlt, heq⟩ := exists_itemAt_of_mem hd
  obtain rfl : d.position = j := by
    calc d.position = (itemAt p.words j p.words[j]).position := congrArg Item.position heq
      _ = j := position_itemAt ..
  cases hdecode : decode? p.words d.position with
  | none => simp only [itemAt, hdecode, reduceCtorEq] at heq
  | some e => simp only [itemAt, hdecode, Item.instruction.injEq] at heq; rw [heq]

theorem eq_instruction_of_decode? {d : Instruction} (hx : x ∈ p.items)
    (hdecode : decode? p.words x.position = some d) : x = .instruction d := by
  obtain ⟨j, hlt, rfl⟩ := exists_itemAt_of_mem hx
  rw [position_itemAt] at hdecode
  simp only [itemAt, hdecode]

/-- An instruction start is the position of a line. -/
theorem exists_item_of_start (hstart : p.starts.has i = true) : ∃ x ∈ p.items, x.position = i := by
  rw [← Marks.mem_toList] at hstart
  suffices hmem : i ∈ p.listing.map Prod.fst by
    rwa [fst_listing, List.mem_map] at hmem
  cases hcheck : Program.check p.words with
  | ok q =>
      obtain ⟨-, code, hreads⟩ := check_eq_ok_iff.mp hcheck
      rwa [(readAlike_of_reads hreads).starts_eq] at hstart
  | error e =>
      rw [(readings_of_check_error hcheck).2] at hstart
      exact (List.mem_filter.mp hstart).1

/-- No two lines have the same position. -/
theorem eq_of_position_eq {y : Item} (hx : x ∈ p.items) (hy : y ∈ p.items)
    (hsame : x.position = y.position) : x = y :=
  List.inj_on_of_nodup_map ((pairwise_position_itemsFrom p.words 0).imp Nat.ne_of_lt) hx hy hsame

namespace Flow

variable {c : CodeMap} {a : Analysis} {labels : LabelMap} {name : String}

/-! ## What a report adds to a line -/

/-- A line of a report shows a name as that of a target. -/
def Carries (line : ReportLine) (name : String) : Prop :=
  (" <" ++ name ++ ">").toList <:+: line.text.toList

/-- The name of the position that a line's jump or call leads to. -/
def targetName? (labels : LabelMap) : Item → Option String
  | .instruction d => d.target?.bind labels.name?
  | .stray _ _ => none

theorem itemRemark_of_none (hname : targetName? labels x = none) :
    itemRemark labels x = "" := by
  cases x with
  | stray i w => rfl
  | instruction d =>
      have hbind : d.target?.bind labels.name? = none := hname
      simp only [itemRemark, targetRemark, hbind]

theorem itemRemark_of_some (hname : targetName? labels x = some name) :
    itemRemark labels x = inAngles name := by
  cases x with
  | stray i w => cases hname
  | instruction d =>
      have hbind : d.target?.bind labels.name? = some name := hname
      simp only [itemRemark, targetRemark, hbind, inAngles]

theorem lacks_name (hname : labels.name? i = some name) : Lacks ['<', '>', ';'] name := by
  obtain ⟨kind, -, rfl⟩ := Option.map_eq_some_iff.mp hname
  have hstem : Lacks ['<', '>', ';'] kind.stem := by cases kind <;> decide
  exact hstem.append (lacks_hexPadded 4 i)

theorem lacks_targetName (hname : targetName? labels x = some name) :
    Lacks ['<', '>', ';'] name := by
  cases x with
  | stray i w => cases hname
  | instruction d =>
      obtain ⟨t, -, hname⟩ := Option.bind_eq_some_iff.mp hname
      exact lacks_name hname

/-- The remark on a line whose instruction has not been visited. -/
def missRemark (c : CodeMap) (a : Analysis) (x : Item) : String :=
  if a.misses c x.position then unreachableRemark else ""

theorem text_reportLine (c : CodeMap) (a : Analysis) (labels : LabelMap) (x : Item) :
    (reportLine c a labels x).text = x.text ++ itemRemark labels x ++ missRemark c a x := rfl

theorem lacks_missRemark (c : CodeMap) (a : Analysis) (x : Item) :
    Lacks ['<', '>'] (missRemark c a x) := by
  unfold missRemark
  split <;> decide

/-- A line shows the name of the target of its own jump or call and no other name. -/
theorem carries_iff :
    Carries (reportLine c a labels x) name ↔ targetName? labels x = some name := by
  have hplain : '<' ∉ x.text.toList := lacks_text x '<' (by decide)
  have hmiss := lacks_missRemark c a x
  show (inAngles name).toList <:+: (reportLine c a labels x).text.toList ↔ _
  rw [text_reportLine]
  constructor
  · intro hoccurs
    cases htarget : targetName? labels x with
    | none =>
        -- without a target there is no bracket in the line
        rw [itemRemark_of_none htarget, String.append_empty] at hoccurs
        have hmem := mem_of_occurs_inAngles hoccurs
        rw [String.toList_append, List.mem_append] at hmem
        exact absurd hmem (not_or.mpr ⟨hplain, hmiss '<' (by decide)⟩)
    | some real =>
        have hreal : Lacks ['<', '>'] real := fun ch hch =>
          lacks_targetName htarget ch (List.mem_append_left [';'] hch)
        rw [itemRemark_of_some htarget] at hoccurs
        rw [eq_of_occurs_inAngles hplain hreal hmiss hoccurs]
  · intro htarget
    rw [itemRemark_of_some htarget, String.toList_append, String.toList_append]
    exact List.infix_append ..

/-- A line ends with the remark exactly if its instruction has not been visited. -/
theorem unreachable_suffix_iff :
    "  ; unreachable".toList <:+ (reportLine c a labels x).text.toList ↔
      a.misses c x.position = true := by
  rw [text_reportLine]
  constructor
  · intro hsuffix
    by_contra hvisited
    have hsemicolon : ';' ∈ (x.text ++ itemRemark labels x ++ missRemark c a x).toList :=
      hsuffix.subset (by decide)
    have hplain : ';' ∉ x.text.toList := lacks_text x ';' (by decide)
    have htarget : ';' ∉ (itemRemark labels x).toList := by
      cases hname : targetName? labels x with
      | none => rw [itemRemark_of_none hname]; decide
      | some name =>
          have hname' := lacks_targetName hname ';' (by decide)
          rw [itemRemark_of_some hname]
          simp [inAngles, hname']
    rw [missRemark, if_neg hvisited, String.append_empty, String.toList_append,
      List.mem_append] at hsemicolon
    exact hsemicolon.elim hplain htarget
  · intro hmisses
    rw [missRemark, if_pos hmisses, String.toList_append]
    exact List.suffix_append ..

/-! ## Names and lines -/

variable {entries : List Nat} {budget : Nat} {line : ReportLine}

/-- The names in a report are those of instruction starts, if the entries are. -/
theorem start_of_name? {edges : List Edge} (hentries : ∀ i ∈ entries, c.starts.has i = true)
    (hname : (LabelMap.ofEdges c edges entries).name? i = some name) : c.starts.has i = true := by
  by_contra hstart
  have hnone : (LabelMap.ofEdges c edges entries).name? i = none :=
    ((names_ofEdges c edges entries).unnamed i).mpr ⟨fun hcalled => hstart hcalled.1,
      fun hjumped => hstart hjumped.1, fun hentry => hstart (hentries i hentry)⟩
  rw [hname] at hnone
  cases hnone

/-- The target of a visited jump or call has a name, if an instruction starts there. -/
theorem exists_name?_of_visited {d : Instruction} {t : Nat} (hrecorded : Recorded c a)
    (entries : List Nat) (hvisited : a.visited.has i = true)
    (hdecode : decode? c.program.words i = some d) (htarget : d.target? = some t)
    (hstart : c.starts.has t = true) :
    ∃ name, (LabelMap.ofEdges c a.edges.toList entries).name? t = some name := by
  obtain ⟨hop, hdestination⟩ := Instruction.target?_eq_some_iff.mp htarget
  obtain ⟨kind, hfollows, hkind⟩ := exists_follows_of_refersToLabel hop
  rw [hdestination] at hfollows
  have hedge : ⟨i, t, kind⟩ ∈ a.edges :=
    hrecorded.mem_iff.mpr ⟨hvisited, mem_edgesAt_source_iff.mpr ⟨d, hdecode, hfollows, Or.inl hop⟩⟩
  have hled : ∀ kinds, kind ∈ kinds → LedTo c kinds a.edges.toList t := fun kinds hmem =>
    ⟨hstart, _, Array.mem_toList_iff.mpr hedge, rfl, hmem⟩
  refine Option.ne_none_iff_exists'.mp fun hnone => ?_
  obtain ⟨hcalled, hjumped, -⟩ := ((names_ofEdges c a.edges.toList entries).unnamed t).mp hnone
  exact hkind.elim (fun h => hcalled (hled _ h)) fun h => hjumped (hled _ h)

/-- A name is the label of one line. -/
theorem filter_label_eq (c : CodeMap) (a : Analysis) (hx : x ∈ c.program.items)
    (hname : labels.name? x.position = some name) :
    (c.program.items.map (reportLine c a labels)).filter (fun line => line.label = some name) =
      [reportLine c a labels x] := by
  have hnodup : c.program.items.Nodup :=
    .of_map _ ((pairwise_position_itemsFrom c.program.words 0).imp Nat.ne_of_lt)
  have hlabel : ∀ y ∈ c.program.items, (reportLine c a labels y).label = some name ↔ y = x := by
    intro y hy
    constructor
    · intro hlabel
      exact eq_of_position_eq hy hx (name?_injective hlabel hname)
    · rintro rfl
      exact hname
  have hfilter :=
    calc c.program.items.filter (fun y => (reportLine c a labels y).label = some name)
        = c.program.items.filter (fun y => y = x) :=
          List.filter_congr fun y hy => decide_eq_decide.mpr (hlabel y hy)
      _ = List.replicate (c.program.items.count x) x := List.filter_eq x
      _ = [x] := by rw [List.count_eq_one_of_mem hnodup hx, List.replicate_one]
  rw [List.filter_map]
  exact congrArg (List.map (reportLine c a labels)) hfilter

/-! ## The report -/

/-- The views that a report gives of a program fit together. -/
structure CrossReferenced (c : CodeMap) (a : Analysis) (r : Report) : Prop where
  /-- Each name is the label of one line, and of the one at its position. -/
  labelled : ∀ i name, (i, name) ∈ r.labels →
    ∃ line, r.listing.filter (fun line => line.label = some name) = [line] ∧ line.position = i
  /-- No line has another label. -/
  named : ∀ line ∈ r.listing, ∀ name, line.label = some name → (line.position, name) ∈ r.labels
  remarked : ∀ line ∈ r.listing,
    "  ; unreachable".toList <:+ line.text.toList ↔ line.position ∈ r.unreachable
  ascending : r.unreachable.Pairwise (· < ·)
  missed : ∀ i, i ∈ r.unreachable ↔ c.starts.has i = true ∧ a.visited.has i = false
  /-- A line that shows a name has a jump or a call to the line with that label. -/
  refers : ∀ line ∈ r.listing, ∀ name, Carries line name →
    ∃ d, decode? c.program.words line.position = some d ∧ d.op.refersToLabel = true ∧
      ∃ target ∈ r.listing, target.label = some name ∧ d.target? = some target.position
  /-- A visited jump or call to an instruction start shows its name. -/
  referred : ∀ i d t, a.visited.has i = true → decode? c.program.words i = some d →
    d.target? = some t → c.starts.has t = true →
    ∃ line ∈ r.listing, line.position = i ∧ ∃ name, (t, name) ∈ r.labels ∧ Carries line name
  edges : r.edges = a.edges.toList
  badTargets : r.badTargets = a.edges.toList.filter fun e =>
    e.kind ∈ [.branch, .condBranch, .call] ∧
      (e.target < 0 ∨ c.starts.has e.target.toNat = false)

theorem isBadTarget_iff {e : Edge} : isBadTarget c e = true ↔
    e.kind ∈ [.branch, .condBranch, .call] ∧
      (e.target < 0 ∨ c.starts.has e.target.toNat = false) := by
  have hkind : (e.kind != .fallthrough) = true ↔ e.kind ∈ [.branch, .condBranch, .call] := by
    cases e.kind <;> decide
  have hland : (c.landing? e).isNone = true ↔
      e.target < 0 ∨ c.starts.has e.target.toNat = false := by
    unfold CodeMap.landing?
    split
    · next hland =>
      refine iff_of_false Bool.false_ne_true (not_or.mpr ⟨Int.not_lt.mpr hland.1, ?_⟩)
      rw [hland.2]
      exact Bool.noConfusion
    · next hland =>
      rw [not_and_or, Int.not_le, Bool.not_eq_true] at hland
      exact iff_of_true rfl hland
  rw [isBadTarget, Bool.and_eq_true, hkind, hland]

theorem misses_iff : a.misses c i = true ↔ c.starts.has i = true ∧ a.visited.has i = false := by
  simp [Analysis.misses]

theorem mem_unreachable_iff : i ∈ (report c entries budget).unreachable ↔
    (analyze c entries budget).misses c i = true := by
  have hlt : (analyze c entries budget).misses c i = true → i < c.program.size := fun hmisses =>
    c.lt_size_of_start (misses_iff.mp hmisses).1
  show i ∈ (List.range c.program.size).filter _ ↔ _
  rw [List.mem_filter, List.mem_range, and_iff_right_iff_imp]
  exact hlt

theorem mem_listing_iff : line ∈ (report c entries budget).listing ↔
    ∃ x ∈ c.program.items, reportLine c (analyze c entries budget)
      (LabelMap.ofEdges c (analyze c entries budget).edges.toList entries) x = line := by
  rw [listing_report_eq, List.mem_map]

/-- The report on a program fits together, whatever its words are and whatever the budget is, if the
entries are instruction starts. -/
theorem report_cross_referenced (c : CodeMap) (entries : List Nat) (budget : Nat)
    (hentries : ∀ i ∈ entries, c.starts.has i = true) :
    CrossReferenced c (analyze c entries budget) (report c entries budget) := by
  have hitem : ∀ i, c.starts.has i = true → ∃ x ∈ c.program.items, x.position = i := by
    rw [c.starts_eq]
    exact fun i => exists_item_of_start
  obtain ⟨⟨left, hstage⟩, hrecorded⟩ := recorded_analyze c entries budget
  refine ⟨?_, ?_, ?_, ?_, ?_, ?_, ?_, rfl, ?_⟩
  · intro i name hmem
    have hname := mem_named_iff.mp hmem
    obtain ⟨x, hx, rfl⟩ := hitem i (start_of_name? hentries hname)
    rw [listing_report_eq]
    exact ⟨_, filter_label_eq c _ hx hname, rfl⟩
  · intro line hline name hlabel
    obtain ⟨x, hx, rfl⟩ := mem_listing_iff.mp hline
    exact mem_named_iff.mpr hlabel
  · intro line hline
    obtain ⟨x, hx, rfl⟩ := mem_listing_iff.mp hline
    rw [unreachable_suffix_iff]
    exact mem_unreachable_iff.symm
  · exact List.pairwise_lt_range.filter _
  · intro i
    rw [mem_unreachable_iff, misses_iff]
  · intro line hline name hcarries
    obtain ⟨x, hx, rfl⟩ := mem_listing_iff.mp hline
    have htarget := carries_iff.mp hcarries
    cases x with
    | stray i w => cases htarget
    | instruction d =>
        obtain ⟨t, htarget, hname⟩ := Option.bind_eq_some_iff.mp htarget
        obtain ⟨y, hy, rfl⟩ := hitem t (start_of_name? hentries hname)
        exact ⟨d, instruction_mem_items hx, (Instruction.target?_eq_some_iff.mp htarget).1,
          _, mem_listing_iff.mpr ⟨y, hy, rfl⟩, hname, htarget⟩
  · intro i d t hvisited hdecode htarget hstart
    obtain ⟨name, hname⟩ :=
      exists_name?_of_visited hrecorded entries hvisited hdecode htarget hstart
    obtain ⟨x, hx, rfl⟩ := hitem i (hstage.visited i hvisited)
    obtain rfl := eq_instruction_of_decode? hx hdecode
    refine ⟨_, mem_listing_iff.mpr ⟨_, hx, rfl⟩, rfl, name, mem_named_iff.mpr hname,
      carries_iff.mpr ?_⟩
    exact Option.bind_eq_some_iff.mpr ⟨t, htarget, hname⟩
  · refine List.filter_congr fun e _ => ?_
    rw [Bool.eq_iff_iff, isBadTarget_iff, decide_eq_true_eq]

/-- A walk that is cut short after one jump, and a word that is no opcode.  The jump shows the name
of its target although the target has not been visited, and what stands behind the word is no
instruction start that could be reported as unreachable. -/
theorem report_cross_referenced_of_garbage :
    (∃ line ∈ (report (.ofProgram ⟨#[19, 2, 32, 99, 31]⟩) [0] 1).listing,
      line.position = 0 ∧ ∃ name,
        (2, name) ∈ (report (.ofProgram ⟨#[19, 2, 32, 99, 31]⟩) [0] 1).labels ∧
        Carries line name) ∧
      2 ∈ (report (.ofProgram ⟨#[19, 2, 32, 99, 31]⟩) [0] 1).unreachable ∧
      4 ∉ (report (.ofProgram ⟨#[19, 2, 32, 99, 31]⟩) [0] 1).unreachable := by
  have hreport := report_cross_referenced
    (.ofProgram ⟨#[19, 2, 32, 99, 31]⟩) [0] 1 (by decide +kernel)
  have hfilter : [0].filter (CodeMap.ofProgram
      ⟨#[19, 2, 32, 99, 31]⟩).starts.has = [0] := by decide +kernel
  have hanalyze : analyze (.ofProgram ⟨#[19, 2, 32, 99, 31]⟩) [0] 1 =
      (Analysis.start (.ofProgram ⟨#[19, 2, 32, 99, 31]⟩)).visit
        (.ofProgram ⟨#[19, 2, 32, 99, 31]⟩) 0 := by
    rw [analyze, hfilter, explore_of_new (by decide +kernel), explore_zero]
  rw [hanalyze] at hreport
  refine ⟨?_, ?_, fun hmem => ?_⟩
  · exact hreport.referred 0 { op := .jump .always, position := 0, first := 2 } 2
      (by decide +kernel) rfl (by decide +kernel) (by decide +kernel)
  · exact (hreport.missed 2).mpr ⟨by decide +kernel, by decide +kernel⟩
  · exact absurd ((hreport.missed 4).mp hmem).1 (by decide +kernel)

end Flow

end WordMachine
