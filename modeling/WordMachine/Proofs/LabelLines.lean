import WordMachine.Proofs.Cutting
import WordMachine.Proofs.Reassembly

/-!
# Lines that place a label or refer to one

A label is placed by its name with a colon behind it, or by a word for it and the name; a jump or a
call gives its mnemonic and the name.  The two kinds of lines are read in different ways, one by its
last character and the other by its tokens.  Either way the name that comes out is the one that was
written, so a label and the references to it have the same id.  What else the name may mean, as a
mnemonic, a register, a number or a symbol, is not asked.

`IsLabelName` are the names that all these lines can hold.
-/

namespace WordMachine

namespace Assembly

open Text

/-! ## Names and lines -/

/-- A name that can stand in each of the lines: it is a single token, no comment starts in it, it
does not look like a directive from the front nor like a label from behind. -/
structure IsLabelName (name : List Char) : Prop where
  ne_nil : name ≠ []
  visible : ∀ c ∈ name, isBlank c = false ∧ c ≠ ',' ∧ c ≠ '#'
  head : name.head? ≠ some '.'
  last : name.getLast? ≠ some ':'

/-- A line holds a text: there may be blanks around it and a comment behind it. -/
def Holds (line body : List Char) : Prop :=
  ∃ l r comment, line = l ++ body ++ r ++ comment ∧ (∀ c ∈ l, isBlank c = true) ∧
    (∀ c ∈ r, isBlank c = true) ∧ (comment = [] ∨ comment.head? = some '#')

/-- A word and a name, with blanks and commas between them. -/
def Follows (name word body : List Char) : Prop :=
  ∃ gap, body = word ++ gap ++ name ∧ gap ≠ [] ∧ ∀ c ∈ gap, isBlank c = true ∨ c = ','

/-- The words that place a label. -/
def labelWords : List String := ["label", "@", "function", "proc"]

/-- The lines that place the label of a name. -/
inductive Places (name line : List Char) : Prop
  | colon (hline : Holds line (name ++ [':']))
  | word {word body : List Char} (hword : (String.ofList word).toLower ∈ labelWords)
    (hbody : Follows name word body) (hline : Holds line body)

/-- The lines that refer to the label of a name in a jump or a call. -/
inductive RefersTo (op : Op) (name line : List Char) : Prop
  | intro {word body : List Char} (hop : op.refersToLabel = true)
    (hword : (String.ofList word).toLower = op.mnemonic) (hbody : Follows name word body)
    (hline : Holds line body)

variable {t : Symbols} {line body word name : List Char} {op : Op} {c : Char}

/-! ## From the line to its text -/

theorem isTokenEnd_iff : isTokenEnd c = true ↔ isBlank c = true ∨ c = ',' := by
  simp [isTokenEnd]

theorem isTokenEnd_toLower (c : Char) : isTokenEnd c.toLower = isTokenEnd c := by
  rw [Bool.eq_iff_iff, isTokenEnd_iff, isTokenEnd_iff, isBlank_toLower,
    toLower_eq_iff (by decide)]

theorem ne_hash_of_blank (hc : isBlank c = true) : c ≠ '#' := by
  rintro rfl
  exact absurd hc (by decide)

/-- Up to the comment, a line is its text with blanks around it. -/
theorem trim_stripComment (hline : Holds line body) (hhash : '#' ∉ body) :
    trim (stripComment line) = trim body := by
  obtain ⟨l, r, comment, rfl, hl, hr, hcomment⟩ := hline
  have hstrip : stripComment (l ++ body ++ r ++ comment) = l ++ body ++ r := by
    have hcode : ∀ c ∈ l ++ body ++ r, (c != '#') = true := by
      intro c hc
      rw [bne_iff_ne]
      rintro rfl
      rcases List.mem_append.mp hc with hc | hc
      · rcases List.mem_append.mp hc with hc | hc
        · exact ne_hash_of_blank (hl _ hc) rfl
        · exact hhash hc
      · exact ne_hash_of_blank (hr _ hc) rfl
    rw [stripComment, List.takeWhile_append_of_pos hcode]
    rcases hcomment with rfl | hhead
    · rw [List.takeWhile_nil, List.append_nil]
    · obtain ⟨rest, rfl⟩ := List.head?_eq_some_iff.mp hhead
      rw [List.takeWhile_cons_of_neg (by decide), List.append_nil]
  rw [hstrip, trim_append_append hl hr]

/-- A line is read as the instruction that it holds. -/
theorem readLine_of_holds (hline : Holds line body) (hne : body ≠ []) (hhash : '#' ∉ body)
    (hfirst : ∀ c, body.head? = some c → isBlank c = false ∧ c ≠ '.')
    (hlast : ∀ c, body.getLast? = some c → isBlank c = false) :
    readLine t line = readInstruction t body := by
  rw [readLine, trim_stripComment hline hhash,
    trim_eq_self (fun c hc => (hfirst c hc).1) hlast]
  split
  · exact absurd rfl hne
  · exact absurd rfl (hfirst '.' rfl).2
  · rfl

/-! ## Labels by their colon -/

theorem IsLabelName.not_blank (hname : IsLabelName name) : ∀ c ∈ name, isBlank c = false :=
  fun c hc => (hname.visible c hc).1

theorem IsLabelName.not_tokenEnd (hname : IsLabelName name) : ∀ c ∈ name, isTokenEnd c = false :=
  fun c hc => by
    rw [Bool.eq_false_iff, ne_eq, isTokenEnd_iff]
    rintro (hblank | hcomma)
    · simp [hname.not_blank c hc] at hblank
    · exact (hname.visible c hc).2.1 hcomma

theorem IsLabelName.hash_notMem (hname : IsLabelName name) : '#' ∉ name :=
  fun hmem => (hname.visible _ hmem).2.2 rfl

theorem readInstruction_colon (t : Symbols) (hname : IsLabelName name) :
    readInstruction t (name ++ [':']) =
      .ok (.emit [Op.label.opcode, Label.id (String.ofList name)]) := by
  have hmarker : markerName? (name ++ [':']) = some name := by
    rw [markerName?, if_pos List.getLast?_concat, List.dropLast_concat,
      trim_of_not_blank hname.not_blank]
  have hplain : (name.isEmpty || name.any isBlank) = false := by
    rw [Bool.or_eq_false_iff, List.isEmpty_eq_false_iff, List.any_eq_false]
    exact ⟨hname.ne_nil, fun c hc => by simp [hname.not_blank c hc]⟩
  simp only [readInstruction, hmarker, hplain]
  rfl

theorem readLine_colon (t : Symbols) (hname : IsLabelName name)
    (hline : Holds line (name ++ [':'])) :
    readLine t line = .ok (.emit [Op.label.opcode, Label.id (String.ofList name)]) := by
  have hhash : '#' ∉ name ++ [':'] := by simp [hname.hash_notMem]
  have hhead : (name ++ [':']).head? = name.head? := List.head?_append_of_ne_nil _ hname.ne_nil
  rw [readLine_of_holds hline (by simp) hhash, readInstruction_colon t hname]
  · intro c hc
    rw [hhead] at hc
    refine ⟨hname.not_blank c (List.mem_of_head? hc), ?_⟩
    rintro rfl
    exact hname.head hc
  · intro c hc
    rw [List.getLast?_concat, Option.some.injEq] at hc
    exact hc ▸ by decide

/-! ## Labels by their tokens -/

/-- Separators in front of a text do not matter. -/
theorem tokens_append_of_sep {sep : Char → Bool} {gap : List Char}
    (hgap : ∀ c ∈ gap, sep c = true) (rest : List Char) :
    tokens sep (gap ++ rest) = tokens sep rest := by
  induction gap with
  | nil => rfl
  | cons c gap ih =>
      obtain ⟨hc, hgap⟩ := List.forall_mem_cons.mp hgap
      rw [List.cons_append, tokens_cons_of_sep hc, ih hgap]

/-- The tokens of a word and a name are the word and the name. -/
theorem tokens_of_follows (hbody : Follows name word body) (hword : IsToken word)
    (hname : IsLabelName name) : tokens isTokenEnd body = [word, name] := by
  obtain ⟨gap, rfl, hne, hgap⟩ := hbody
  obtain ⟨c, gap, rfl⟩ := List.exists_cons_of_ne_nil hne
  have hsep : ∀ e ∈ c :: gap, isTokenEnd e = true := fun e he => isTokenEnd_iff.mpr (hgap e he)
  obtain ⟨hc, hrest⟩ := List.forall_mem_cons.mp hsep
  rw [List.append_assoc, List.cons_append, tokens_append_cons hword.1 hword.not_tokenEnd hc,
    tokens_append_of_sep hrest, tokens_of_not_sep hname.ne_nil hname.not_tokenEnd]

theorem hash_notMem_of_follows (hbody : Follows name word body) (hword : IsToken word)
    (hname : IsLabelName name) : '#' ∉ body := by
  obtain ⟨gap, rfl, -, hgap⟩ := hbody
  rw [List.mem_append, List.mem_append]
  rintro ((hmem | hmem) | hmem)
  · exact (hword.2 _ hmem).2.1 rfl
  · rcases hgap _ hmem with hblank | hcomma
    · exact ne_hash_of_blank hblank rfl
    · exact absurd hcomma (by decide)
  · exact hname.hash_notMem hmem

/-- A line of a word and a name is read as the operation of the word, the name being that of a
label. -/
theorem readLine_of_follows (t : Symbols) (hword : IsToken word) (hdot : word.head? ≠ some '.')
    (hop : Op.ofMnemonic? (String.ofList word) = some op) (htakes : op.takesLabel = true)
    (hname : IsLabelName name) (hbody : Follows name word body) (hline : Holds line body) :
    readLine t line = .ok (.emit [op.opcode, Label.id (String.ofList name)]) := by
  have htokens := tokens_of_follows hbody hword hname
  have hhash := hash_notMem_of_follows hbody hword hname
  obtain ⟨gap, rfl, hne, hgap⟩ := hbody
  have hhead : (word ++ gap ++ name).head? = word.head? := by
    rw [List.append_assoc]
    exact List.head?_append_of_ne_nil _ hword.1
  have hlast : (word ++ gap ++ name).getLast? = name.getLast? :=
    List.getLast?_append_of_ne_nil _ hname.ne_nil
  have hmarker : markerName? (word ++ gap ++ name) = none := by
    rw [markerName?, if_neg]
    rw [hlast]
    exact hname.last
  have hread : readInstruction t (word ++ gap ++ name) =
      readOperands t (word ++ gap ++ name) op [String.ofList name] := by
    simp only [readInstruction, hmarker, htokens, List.map_cons, List.map_nil, hop]
  rw [readLine_of_holds hline (by simp [hword.1]) hhash, hread, readOperands, if_pos htakes]
  · intro c hc
    rw [hhead] at hc
    refine ⟨isBlank_eq_false (hword.not_tokenEnd c (List.mem_of_head? hc)), ?_⟩
    rintro rfl
    exact hdot hc
  · intro c hc
    rw [hlast] at hc
    exact hname.not_blank c (List.mem_of_getLast? hc)

/-! ## Words in any case -/

theorem toList_toLower (s : String) : s.toLower.toList = s.toList.map Char.toLower :=
  String.toList_map

/-- The case of letters does not matter for a mnemonic. -/
theorem ofMnemonic?_toLower (s : String) : Op.ofMnemonic? s.toLower = Op.ofMnemonic? s := by
  have hagain : s.toLower.toLower = s.toLower := by
    rw [← String.toList_inj, toList_toLower, toList_toLower, List.map_map]
    exact List.map_congr_left fun c _ => toLower_toLower c
  unfold Op.ofMnemonic?
  rw [hagain]

theorem isToken_of_map_toLower (hword : IsToken (word.map Char.toLower)) : IsToken word := by
  refine ⟨fun h => hword.1 (by rw [h]; rfl), fun c hc => ?_⟩
  obtain ⟨hend, hhash, hcolon⟩ := hword.2 c.toLower (List.mem_map_of_mem hc)
  rw [isTokenEnd_toLower] at hend
  rw [ne_eq, toLower_eq_iff (by decide)] at hhash hcolon
  exact ⟨hend, hhash, hcolon⟩

/-- A line that gives the word of an operation, in any case, and a name. -/
theorem readLine_of_toLower (t : Symbols) {m : String} (hm : IsToken m.toList)
    (hdot : m.toList.head? ≠ some '.') (hop : Op.ofMnemonic? m = some op)
    (htakes : op.takesLabel = true) (hword : (String.ofList word).toLower = m)
    (hname : IsLabelName name) (hbody : Follows name word body) (hline : Holds line body) :
    readLine t line = .ok (.emit [op.opcode, Label.id (String.ofList name)]) := by
  have hlist : m.toList = word.map Char.toLower := by
    rw [← hword, toList_toLower, String.toList_ofList]
  refine readLine_of_follows t (isToken_of_map_toLower (hlist ▸ hm)) ?_ ?_ htakes hname hbody hline
  · intro hhead
    apply hdot
    rw [hlist, List.head?_map, hhead]
    rfl
  · rw [← ofMnemonic?_toLower, hword, hop]

theorem readLine_of_places (t : Symbols) (hname : IsLabelName name) (hline : Places name line) :
    readLine t line = .ok (.emit [Op.label.opcode, Label.id (String.ofList name)]) := by
  have hwords : ∀ m ∈ labelWords, IsToken m.toList ∧ m.toList.head? ≠ some '.' ∧
      Op.ofMnemonic? m = some .label := by decide +kernel
  cases hline with
  | colon hline => exact readLine_colon t hname hline
  | word hword hbody hline =>
      obtain ⟨htoken, hdot, hop⟩ := hwords _ hword
      exact readLine_of_toLower t htoken hdot hop rfl rfl hname hbody hline

theorem readLine_of_refersTo (t : Symbols) (hname : IsLabelName name)
    (hline : RefersTo op name line) :
    readLine t line = .ok (.emit [op.opcode, Label.id (String.ofList name)]) := by
  have hdots : (Op.all.all fun op => op.mnemonic.toList.head? != some '.') = true := by
    decide +kernel
  obtain ⟨hop, hword, hbody, hline⟩ := hline
  refine readLine_of_toLower t (isToken_mnemonic op) ?_ (Op.ofMnemonic?_mnemonic op) ?_ hword hname
    hbody hline
  · simpa using List.all_eq_true.mp hdots op (Op.mem_all op)
  · rw [Op.takesLabel, hop, Bool.true_or]

/-! ## The lines are read alike -/

theorem Assembler.feed_of_emit {a : Assembler} {raw : List Char} {words : List Word}
    (hread : readLine a.symbols raw = .ok (.emit words)) :
    a.feed raw = { a with line := a.line + 1, words := a.words ++ words } :=
  Assembler.feed_of_ok hread

/-- Whatever the assembler knows, each line that places the label of a name counts as one line and
adds a label with the id of the name, and nothing else is changed.  Each jump or call to the name
gets the same id. -/
theorem Assembler.feed_label_line (a : Assembler) (name : String)
    (hname : IsLabelName name.toList) :
    (∀ raw : String, Places name.toList raw.toList →
      a.feedLine raw = { a with line := a.line + 1, words := a.words ++ [18, Label.id name] }) ∧
    ∀ (op : Op) (raw : String), RefersTo op name.toList raw.toList →
      a.feedLine raw =
        { a with line := a.line + 1, words := a.words ++ [op.opcode, Label.id name] } := by
  constructor
  · intro raw hraw
    have hread := readLine_of_places a.symbols hname hraw
    rw [String.ofList_toList] at hread
    exact feed_of_emit hread
  · intro op raw hraw
    have hread := readLine_of_refersTo a.symbols hname hraw
    rw [String.ofList_toList] at hread
    exact feed_of_emit hread

/-- A label with the name of a mnemonic, which is a constant as well. -/
theorem Assembler.feed_label_line_of_mnemonic :
    ∃ a : Assembler, a.symbols.constant? "jmp" = some 5 ∧ IsLabelName "jmp".toList ∧
      Places "jmp".toList "\tPROC ,jmp # here".toList ∧
      RefersTo (.jump .always) "jmp".toList "Jmp jmp".toList ∧
      (a.feedLine "\tPROC ,jmp # here").words = #[18, Label.id "jmp"] ∧
      (a.feedLine "Jmp jmp").words = #[19, Label.id "jmp"] := by
  have hvisible : ∀ c ∈ "jmp".toList, isBlank c = false ∧ c ≠ ',' ∧ c ≠ '#' :=
    List.forall_mem_cons.mpr ⟨by decide, List.forall_mem_cons.mpr
      ⟨by decide, List.forall_mem_singleton.mpr (by decide)⟩⟩
  have hname : IsLabelName "jmp".toList := ⟨by decide, hvisible, by decide, by decide⟩
  have hplaces : Places "jmp".toList "\tPROC ,jmp # here".toList := by
    have hbody : Follows "jmp".toList "PROC".toList "PROC ,jmp".toList :=
      ⟨" ,".toList, rfl, by decide,
        List.forall_mem_cons.mpr ⟨by decide, List.forall_mem_singleton.mpr (by decide)⟩⟩
    have hline : Holds "\tPROC ,jmp # here".toList "PROC ,jmp".toList :=
      ⟨"\t".toList, " ".toList, "# here".toList, rfl, List.forall_mem_singleton.mpr (by decide),
        List.forall_mem_singleton.mpr (by decide), Or.inr rfl⟩
    exact .word (by decide +kernel) hbody hline
  have hrefers : RefersTo (.jump .always) "jmp".toList "Jmp jmp".toList := by
    have hbody : Follows "jmp".toList "Jmp".toList "Jmp jmp".toList :=
      ⟨" ".toList, rfl, by decide, List.forall_mem_singleton.mpr (by decide)⟩
    have hline : Holds "Jmp jmp".toList "Jmp jmp".toList :=
      ⟨[], [], [], rfl, List.forall_mem_nil _, List.forall_mem_nil _, Or.inl rfl⟩
    exact .intro rfl (by decide +kernel) hbody hline
  let a : Assembler := { symbols := { constants := [("jmp", 5)] } }
  obtain ⟨hplaced, hreferred⟩ := Assembler.feed_label_line a "jmp" hname
  refine ⟨a, rfl, hname, hplaces, hrefers, ?_, ?_⟩
  · rw [hplaced _ hplaces]
    rfl
  · rw [hreferred _ _ hrefers]
    rfl

end Assembly

end WordMachine
