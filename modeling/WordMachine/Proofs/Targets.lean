import WordMachine.Proofs.Reachability
import WordMachine.Proofs.ResolvedAgain

/-!
# Where the jumps and calls of resolved code lead

Resolving puts a distance after a jump and a position after a call.  The listing and the analysis of
control flow both turn these words into positions again.  Here it is shown that they come out at the
labels that the unresolved code has named, and that every jump, every call and every edge of an
analysis that is one of them ends on a label, so that a report on resolved code has no bad targets.
-/

namespace WordMachine

variable {words : Array Word} {p : Program} {code : List Instruction} {d : Instruction} {t : Nat}

namespace Label

/-- The target of a linked reference is the label with its id. -/
theorem target?_link (hreads : Reads words 0 code) (hsize : words.size < 0x80000000) (hd : d ∈ code)
    (hop : d.op.refersToLabel = true) (htarget : position? words d.first = some t) :
    (link words d).target? = some t := by
  have hdestination := destination_link hreads hsize hd hop htarget
  have hnonneg : (0 : Int) ≤ t := Int.natCast_nonneg t
  simp only [Instruction.target?, op_link, hop, hdestination, hnonneg, decide_true, Bool.and_true,
    if_true, Int.toNat_natCast]

/-- Where no id is repeated, the position of an id is that of the one label with it. -/
theorem definedAt_of_position? {starts : List Nat} {id : Word} (hwalk : walk words = .ok starts)
    (hfresh : ∀ i id, ¬ Repeats words starts i id) (htarget : position? words id = some t) :
    DefinedAt words starts id t := by
  obtain ⟨code, hreads, rfl⟩ := walk_eq_ok_iff.mp hwalk
  rw [position?, startsFrom_of_reads hreads] at htarget
  exact definedAt_of_find? hfresh htarget

end Label

namespace Flow

variable {e : Edge}

/-- Only jumps and calls pass control on otherwise than to what follows in the code. -/
theorem Follows.destination {target : Int} {kind : EdgeKind} (hfollows : Follows d target kind)
    (hkind : kind ≠ .fallthrough) : d.op.refersToLabel = true ∧ target = d.destination := by
  cases kind with
  | fallthrough => exact absurd rfl hkind
  | branch =>
      obtain ⟨hop, htarget⟩ := hfollows
      exact ⟨by rw [hop]; rfl, htarget⟩
  | condBranch =>
      obtain ⟨⟨condition, -, hop⟩, htarget⟩ := hfollows
      exact ⟨by rw [hop]; rfl, htarget⟩
  | call =>
      obtain ⟨hop, htarget⟩ := hfollows
      exact ⟨by rw [hop]; rfl, htarget⟩

/-- In code whose references lead to labels, the edges of an analysis that are jumps and calls end
on labels, whatever its budget. -/
theorem exists_label_of_mem_edges (hreads : Reads p.words 0 code) (hlinked : Label.Linked code)
    (entries : List Nat) (budget : Nat)
    (he : e ∈ (analyze (CodeMap.ofProgram p) entries budget).edges)
    (hkind : e.kind ≠ .fallthrough) : ∃ l ∈ code, l.op = .label ∧ e.target = l.position := by
  obtain ⟨⟨left, hstage⟩, hrecorded⟩ := recorded_analyze (CodeMap.ofProgram p) entries budget
  obtain ⟨hvisited, hedge⟩ := hrecorded.mem_iff.mp he
  obtain ⟨d, hdecode, hfollows, -⟩ := mem_edgesAt_source_iff.mp hedge
  obtain ⟨hop, htarget⟩ := hfollows.destination hkind
  -- only instruction starts are visited, so the jump or call is one of the code
  obtain ⟨d', hd', hposition⟩ :=
    (Program.has_starts_iff hreads).mp (hstage.visited e.source hvisited)
  rw [← hposition] at hdecode
  obtain rfl := hreads.eq_of_decode? hd' hdecode
  obtain ⟨l, hl, hlabel, hdestination⟩ := hlinked d hd' hop
  exact ⟨l, hl, hlabel, htarget.trans hdestination⟩

/-- A report on such code has no bad targets. -/
theorem badTargets_of_linked (hreads : Reads p.words 0 code) (hlinked : Label.Linked code)
    (entries : List Nat) (budget : Nat) :
    (report (CodeMap.ofProgram p) entries budget).badTargets = [] := by
  refine List.filter_eq_nil_iff.mpr fun e he hbad => ?_
  rw [isBadTarget, Bool.and_eq_true, bne_iff_ne] at hbad
  obtain ⟨hkind, hnone⟩ := hbad
  obtain ⟨l, hl, -, htarget⟩ :=
    exists_label_of_mem_edges hreads hlinked entries budget (Array.mem_toList_iff.mp he) hkind
  have hstart : p.starts.has l.position = true :=
    (Program.has_starts_iff hreads).mpr ⟨l, hl, rfl⟩
  rw [landing?_eq_some_iff.mpr ⟨htarget, hstart⟩] at hnone
  exact Bool.false_ne_true hnone

/-- In resolved code every jump and every call leads to the label that it named in the unresolved
code.  Hence a report has no bad targets, and the jumps and calls among the edges of an analysis
end on labels. -/
theorem leads_to_label_of_resolve (hsize : words.size ≤ 0x7fffffff)
    (hresolve : Label.resolve words = .ok p) :
    (∃ starts, walk words = .ok starts ∧
      ∀ i (op : Op) id, p.starts.has i = true → p.words[i]? = some op.opcode →
        op.refersToLabel = true → words[i + 1]? = some id →
        ∃ d t, decode? p.words i = some d ∧ d.target? = some t ∧
          Label.DefinedAt words starts id t ∧ (CodeMap.ofProgram p).starts.has t = true) ∧
    ∀ entries budget,
      (report (CodeMap.ofProgram p) entries budget).badTargets = [] ∧
      ∀ e ∈ (analyze (CodeMap.ofProgram p) entries budget).edges, e.kind ≠ .fallthrough →
        ∃ l, decode? p.words l.position = some l ∧ l.op = .label ∧ e.target = l.position ∧
          (CodeMap.ofProgram p).starts.has l.position = true := by
  obtain ⟨code, hreads, hlinks, -, hfound⟩ := Label.reads_of_resolve hresolve
  obtain ⟨starts, hwalk, hrewritten⟩ := Label.rewritten_of_resolve hresolve
  have hsmall : words.size < 0x80000000 := by omega
  have hlinked := Label.linked_map_link hreads hsmall hfound
  refine ⟨⟨starts, hwalk, ?_⟩, fun entries budget => ⟨?_, ?_⟩⟩
  · intro i op id hstart hopcode hop hid
    obtain ⟨d, hd, rfl⟩ := (Program.has_starts_iff hlinks).mp hstart
    have hdecode := hlinks.decode?_of_mem hd
    obtain ⟨e, he, rfl⟩ := List.mem_map.mp hd
    rw [Label.position_link] at hdecode hopcode hid ⊢
    -- the instruction that stands there has been a reference to the id before
    obtain rfl : op = e.op := by
      rw [getElem?_of_decode?_opcode hdecode, Label.op_link, Option.some.injEq] at hopcode
      exact (Op.opcode_injective hopcode).symm
    have hcount : 0 < e.op.operandCount := by
      rw [Label.operandCount_of_refersToLabel hop]
      exact Nat.one_pos
    obtain rfl : e.first = id := by
      rw [getElem?_of_decode?_first (hreads.decode?_of_mem he) hcount, Option.some.injEq] at hid
      exact hid
    obtain ⟨t, htarget⟩ := hfound e he hop
    obtain ⟨l, hl, rfl, -, -⟩ := Label.exists_mem_of_position? hreads htarget
    refine ⟨_, l.position, hdecode, Label.target?_link hreads hsmall he hop htarget,
      Label.definedAt_of_position? hwalk hrewritten.fresh htarget, ?_⟩
    exact (Program.has_starts_iff hlinks).mpr
      ⟨_, List.mem_map_of_mem hl, Label.position_link l⟩
  · exact badTargets_of_linked hlinks hlinked entries budget
  · intro e he hkind
    obtain ⟨l, hl, hlabel, htarget⟩ :=
      exists_label_of_mem_edges hlinks hlinked entries budget he hkind
    exact ⟨l, hlinks.decode?_of_mem hl, hlabel, htarget,
      (Program.has_starts_iff hlinks).mpr ⟨l, hl, rfl⟩⟩

/-- A conditional jump forward, a call forward and a jump backward. -/
theorem leads_to_label_of_resolve_of_calls :
    Label.resolve #[18, 5, 20, 6, 30, 6, 19, 5, 18, 6, 31] =
        .ok ⟨#[18, 5, 20, 6, 30, 7, 19, -6, 18, 6, 31]⟩ ∧
      (∃ d, decode? #[18, 5, 20, 6, 30, 7, 19, -6, 18, 6, 31] 4 = some d ∧ d.target? = some 8) ∧
      ∀ entries budget,
        (report (CodeMap.ofProgram ⟨#[18, 5, 20, 6, 30, 7, 19, -6, 18, 6, 31]⟩) entries
          budget).badTargets = [] := by
  have hresolve : Label.resolve #[18, 5, 20, 6, 30, 6, 19, 5, 18, 6, 31] =
      .ok ⟨#[18, 5, 20, 6, 30, 7, 19, -6, 18, 6, 31]⟩ := by
    with_unfolding_all rfl
  obtain ⟨⟨starts, hwalk, hleads⟩, hreports⟩ :=
    leads_to_label_of_resolve (by decide) hresolve
  obtain ⟨d, t, hdecode, htarget, hdefined, -⟩ :=
    hleads 4 .call 6 (by decide +kernel) rfl rfl rfl
  have hunique : t = 8 := by
    have hstarts : walk #[18, 5, 20, 6, 30, 6, 19, 5, 18, 6, 31] = .ok [0, 2, 4, 6, 8, 10] := by
      with_unfolding_all rfl
    obtain rfl : starts = [0, 2, 4, 6, 8, 10] := Except.ok.inj (hwalk.symm.trans hstarts)
    exact (hdefined.2.2 8 (by decide) ⟨rfl, rfl⟩).symm
  rw [hunique] at htarget
  exact ⟨hresolve, ⟨d, hdecode, htarget⟩, fun entries budget => (hreports entries budget).1⟩

end Flow

end WordMachine
