import Mathlib.Data.List.Basic
import WordMachine.Flow.Report
import WordMachine.Proofs.Integrity

/-!
# The analysis of control flow misses no run

`Flow.explore` walks the control flow graph with a queue and a budget of visits.  With a budget of
one visit for each instruction start it comes to the end of its queue, and the positions it has then
visited are closed under the edges of the graph (`Stage.explore`, `region_analyze`).  A run that
begins among them stays among them, although a call returns along no edge of the graph and a jump
goes on two words behind the position that its edge leads to.
-/

namespace WordMachine

/-! ## Counting marks -/

namespace Marks

/-- The number of marked positions. -/
def count (m : Marks) : Nat := m.flags.count true

theorem count_mark {m : Marks} {i : Nat} (hlt : i < m.size) (hnew : m.has i = false) :
    (m.mark i).count = m.count + 1 := by
  have hbound : i < m.flags.size := hlt
  have hflag : m.flags[i] = false := by
    rw [has, Array.getElem?_eq_getElem hbound] at hnew
    exact hnew
  have hset : (m.mark i).flags = m.flags.set i true := dif_pos hbound
  rw [count, hset, Array.count_set, hflag]
  rfl

theorem has_mark_iff {m : Marks} {i j : Nat} (hlt : i < m.size) :
    (m.mark i).has j = true ↔ m.has j = true ∨ i = j := by
  rw [has_mark, Bool.or_eq_true, decide_eq_true_eq]
  constructor
  · rintro (hold | ⟨hsame, -⟩)
    · exact Or.inl hold
    · exact Or.inr hsame
  · rintro (hold | rfl)
    · exact Or.inl hold
    · exact Or.inr ⟨rfl, hlt⟩

theorem toList_flags (m : Marks) : m.flags.toList = (List.range m.size).map m.has := by
  refine List.ext_getElem? fun i => ?_
  rw [Array.getElem?_toList, List.getElem?_map]
  by_cases hlt : i < m.flags.size
  · have hrange : (List.range m.size)[i]? = some i := List.getElem?_range hlt
    rw [hrange, Option.map_some, has, Array.getElem?_eq_getElem hlt, Option.getD_some]
  · have hrange : (List.range m.size)[i]? = Option.none :=
      List.getElem?_eq_none (by rw [List.length_range]; exact Nat.not_lt.mp hlt)
    rw [hrange, Option.map_none, Array.getElem?_eq_none (Nat.not_lt.mp hlt)]

theorem length_toList (m : Marks) : m.toList.length = m.count := by
  calc m.toList.length
      = (List.range m.size).countP m.has := List.countP_eq_length_filter.symm
    _ = ((List.range m.size).map m.has).count true := by
      rw [List.count, List.countP_map]
      congr 1
      funext i
      simp
    _ = m.count := by rw [← toList_flags, Array.count_toList, count]

section Subset

variable {m m' : Marks} (hsize : m.size = m'.size) (hsub : ∀ i, m.has i = true → m'.has i = true)

include hsize hsub

/-- A set of positions lists its elements in the order in which a larger set does. -/
theorem toList_sublist : m.toList.Sublist m'.toList := by
  unfold toList
  rw [hsize]
  exact List.monotone_filter_right _ hsub

theorem count_le : m.count ≤ m'.count := by
  rw [← length_toList, ← length_toList]
  exact (toList_sublist hsize hsub).length_le

/-- A set that has no fewer elements than a larger one is the larger one. -/
theorem has_of_count_le (hcount : m'.count ≤ m.count) {i : Nat} (hi : m'.has i = true) :
    m.has i = true := by
  rw [← length_toList, ← length_toList] at hcount
  rw [← mem_toList, (toList_sublist hsize hsub).eq_of_length_le hcount, mem_toList]
  exact hi

end Subset

theorem count_le_size (m : Marks) : m.count ≤ m.size := Array.count_le_size

end Marks

/-! ## The walk over the graph -/

namespace Flow

variable {c : CodeMap} {queue rest : List Nat} {a : Analysis} {i budget : Nat}

/-- What holds at each stage of a walk over the graph: edges lead from visited positions to visited
or queued ones. -/
structure Stage (c : CodeMap) (queue : List Nat) (a : Analysis) : Prop where
  size_visited : a.visited.size = c.program.size
  size_exits : a.exits.size = c.program.size
  visited : ∀ i, a.visited.has i = true → c.starts.has i = true
  queued : ∀ i ∈ queue, c.starts.has i = true
  follow : ∀ i, a.visited.has i = true → ∀ e ∈ c.edgesAt i, ∀ j, c.landing? e = some j →
    a.visited.has j = true ∨ j ∈ queue
  exits : ∀ i, a.exits.has i = true ↔ a.visited.has i = true ∧ c.isExitAt i = true

theorem CodeMap.size_starts (c : CodeMap) : c.starts.size = c.program.size := by
  rw [c.starts_eq, Program.size_starts]

theorem CodeMap.lt_size_of_start (c : CodeMap) (hstart : c.starts.has i = true) :
    i < c.program.size := by
  have hlt := Marks.lt_size_of_has hstart
  rwa [c.size_starts] at hlt

namespace Stage

theorem start (hqueued : ∀ i ∈ queue, c.starts.has i = true) :
    Stage c queue (Analysis.start c) where
  size_visited := Marks.size_none _
  size_exits := Marks.size_none _
  visited i h := by simp [Analysis.start] at h
  queued := hqueued
  follow i h := by simp [Analysis.start] at h
  exits i := by simp [Analysis.start]

/-- A position that was visited before can leave the queue. -/
theorem skip (hstage : Stage c (i :: rest) a) (hvisited : a.visited.has i = true) :
    Stage c rest a := by
  refine { hstage with queued := ?_, follow := ?_ }
  · intro j hj
    exact hstage.queued j (List.mem_cons_of_mem _ hj)
  · intro j hj e he k hland
    rcases hstage.follow j hj e he k hland with hdone | hqueue
    · exact Or.inl hdone
    · rcases List.mem_cons.mp hqueue with rfl | hrest
      · exact Or.inl hvisited
      · exact Or.inr hrest

theorem has_visit (hstage : Stage c (i :: rest) a) (j : Nat) :
    (a.visit c i).visited.has j = true ↔ a.visited.has j = true ∨ i = j := by
  refine Marks.has_mark_iff ?_
  rw [hstage.size_visited]
  exact c.lt_size_of_start (hstage.queued i (List.mem_cons_self ..))

/-- A visit marks one more position. -/
theorem count_visit (hstage : Stage c (i :: rest) a) (hnew : a.visited.has i = false) :
    (a.visit c i).visited.count = a.visited.count + 1 := by
  refine Marks.count_mark ?_ hnew
  rw [hstage.size_visited]
  exact c.lt_size_of_start (hstage.queued i (List.mem_cons_self ..))

theorem has_exits_visit (hstage : Stage c (i :: rest) a) (j : Nat) :
    (a.visit c i).exits.has j = true ↔
      a.exits.has j = true ∨ i = j ∧ c.isExitAt i = true := by
  unfold Analysis.visit
  cases hexit : c.isExitAt i with
  | false => simp
  | true =>
      have hlt : i < a.exits.size := by
        rw [hstage.size_exits]
        exact c.lt_size_of_start (hstage.queued i (List.mem_cons_self ..))
      simp only [if_true, and_true]
      exact Marks.has_mark_iff hlt

/-- A position is visited, and the positions that its edges lead to are queued. -/
theorem visit (hstage : Stage c (i :: rest) a) :
    Stage c (rest ++ (c.edgesAt i).filterMap c.landing?) (a.visit c i) where
  size_visited := by
    rw [← hstage.size_visited]
    exact Marks.size_mark ..
  size_exits := by
    rw [← hstage.size_exits]
    unfold Analysis.visit
    split
    · exact Marks.size_mark ..
    · rfl
  visited j hj := by
    rcases (hstage.has_visit j).mp hj with hold | rfl
    · exact hstage.visited j hold
    · exact hstage.queued i (List.mem_cons_self ..)
  queued j hj := by
    rcases List.mem_append.mp hj with hrest | hnew
    · exact hstage.queued j (List.mem_cons_of_mem _ hrest)
    · obtain ⟨e, -, hland⟩ := List.mem_filterMap.mp hnew
      exact (landing?_eq_some_iff.mp hland).2
  follow j hj e he k hland := by
    rcases (hstage.has_visit j).mp hj with hold | rfl
    · rcases hstage.follow j hold e he k hland with hdone | hqueue
      · exact Or.inl ((hstage.has_visit k).mpr (Or.inl hdone))
      · rcases List.mem_cons.mp hqueue with rfl | hrest
        · exact Or.inl ((hstage.has_visit k).mpr (Or.inr rfl))
        · exact Or.inr (List.mem_append_left _ hrest)
    · exact Or.inr (List.mem_append_right _ (List.mem_filterMap.mpr ⟨e, he, hland⟩))
  exits j := by
    rw [hstage.has_exits_visit, hstage.has_visit, hstage.exits]
    constructor
    · rintro (⟨hold, hexit⟩ | ⟨rfl, hexit⟩)
      · exact ⟨Or.inl hold, hexit⟩
      · exact ⟨Or.inr rfl, hexit⟩
    · rintro ⟨hold | rfl, hexit⟩
      · exact Or.inl ⟨hold, hexit⟩
      · exact Or.inr ⟨rfl, hexit⟩

theorem size_visited_eq (hstage : Stage c queue a) : a.visited.size = c.starts.size := by
  rw [hstage.size_visited, c.size_starts]

/-- Once as many positions have been visited as there are instruction starts, nothing is left to
do. -/
theorem of_count (hstage : Stage c queue a) (hcount : c.starts.count ≤ a.visited.count) :
    Stage c [] a ∧ ∀ j ∈ queue, a.visited.has j = true := by
  have hall : ∀ j, c.starts.has j = true → a.visited.has j = true := by
    intro j hstart
    exact Marks.has_of_count_le hstage.size_visited_eq hstage.visited hcount hstart
  refine ⟨{ hstage with queued := ?_, follow := ?_ }, ?_⟩
  · intro j hj
    cases hj
  · intro j hj e he k hland
    exact Or.inl (hall k (landing?_eq_some_iff.mp hland).2)
  · intro j hj
    exact hall j (hstage.queued j hj)

/-- With enough budget the walk ends with an empty queue, and what was queued or visited is visited
then. -/
theorem explore (hstage : Stage c queue a)
    (hbudget : c.starts.count ≤ a.visited.count + budget) :
    Stage c [] (Flow.explore c budget queue a) ∧
      ∀ j, a.visited.has j = true ∨ j ∈ queue →
        (Flow.explore c budget queue a).visited.has j = true := by
  fun_induction Flow.explore c budget queue a with
  | case1 queue a =>
      -- the budget is used up, so there have been as many visits as there are instruction starts
      obtain ⟨hdone, hqueue⟩ := hstage.of_count hbudget
      refine ⟨hdone, ?_⟩
      intro j hj
      rcases hj with hold | hwaiting
      · exact hold
      · exact hqueue j hwaiting
  | case2 a budget =>
      refine ⟨hstage, ?_⟩
      intro j hj
      rcases hj with hold | hnil
      · exact hold
      · cases hnil
  | case3 a budget i rest hvisited ih =>
      obtain ⟨hdone, hkept⟩ := ih (hstage.skip hvisited) hbudget
      refine ⟨hdone, ?_⟩
      intro j hj
      apply hkept j
      rcases hj with hold | hqueue
      · exact Or.inl hold
      · rcases List.mem_cons.mp hqueue with rfl | hrest
        · exact Or.inl hvisited
        · exact Or.inr hrest
  | case4 a budget i rest hnew ih =>
      -- a visit uses up one of the budget and marks one more position
      have hcount := hstage.count_visit (by simpa using hnew)
      obtain ⟨hdone, hkept⟩ := ih hstage.visit (by omega)
      refine ⟨hdone, ?_⟩
      intro j hj
      apply hkept j
      rcases hj with hold | hqueue
      · exact Or.inl ((hstage.has_visit j).mpr (Or.inl hold))
      · rcases List.mem_cons.mp hqueue with rfl | hrest
        · exact Or.inl ((hstage.has_visit j).mpr (Or.inr rfl))
        · exact Or.inr (List.mem_append_left _ hrest)

end Stage

/-- With a visit for each instruction start, an analysis visits its entries and is closed under
edges. -/
theorem stage_analyze_of_count_le (c : CodeMap) (entries : List Nat)
    (hbudget : c.starts.count ≤ budget) :
    Stage c [] (analyze c entries budget) ∧ ∀ i ∈ entries, c.starts.has i = true →
      (analyze c entries budget).visited.has i = true := by
  have hstart : Stage c (entries.filter c.starts.has) (Analysis.start c) :=
    .start fun i hi => (List.mem_filter.mp hi).2
  have henough : c.starts.count ≤ (Analysis.start c).visited.count + budget := by omega
  obtain ⟨hdone, hkept⟩ := hstart.explore henough
  exact ⟨hdone, fun i hi hstart => hkept i (Or.inr (List.mem_filter.mpr ⟨hi, hstart⟩))⟩

/-- A visit for each word is more than enough. -/
theorem stage_analyze (c : CodeMap) (entries : List Nat) (hbudget : c.program.size ≤ budget) :
    Stage c [] (analyze c entries budget) ∧ ∀ i ∈ entries, c.starts.has i = true →
      (analyze c entries budget).visited.has i = true := by
  refine stage_analyze_of_count_le c entries (Nat.le_trans ?_ hbudget)
  rw [← c.size_starts]
  exact c.starts.count_le_size

theorem region_analyze {p : Program} (entries : List Nat) (hbudget : p.size ≤ budget) :
    Region p fun i => (analyze (CodeMap.ofProgram p) entries budget).visited.has i = true := by
  obtain ⟨hstage, -⟩ := stage_analyze (CodeMap.ofProgram p) entries hbudget
  refine ⟨hstage.visited, ?_⟩
  intro i hi e he j hland
  rcases hstage.follow i hi e he j hland with hdone | hnil
  · exact hdone
  · cases hnil

/-! ## Runs of resolved code -/

/-- Whatever resolved code executes has been visited by an analysis that begins at its first word
and has a visit for each word; where the program ends is one of the exits, and nothing that is
executed is reported as unreachable. -/
theorem visited_of_executes {σ : Type} {words : Array Word} {p : Program} {entries : List Nat}
    (hsmall : words.size < 0x7fffffff) (hresolve : Label.resolve words = .ok p)
    (hwords : DisciplinedCode words) (hentry : 0 ∈ entries) (hbudget : p.size ≤ budget)
    (host : Host σ) (m : Machine) (s : σ) {d : Instruction}
    (hexecutes : Machine.Executes host p (m.loaded p, s) d) :
    (analyze (CodeMap.ofProgram p) entries budget).visited.has d.position = true ∧
      (d.op = .halt ∨ d.op = .retn →
        (analyze (CodeMap.ofProgram p) entries budget).exits.has d.position = true) ∧
      d.position ∉ (report (CodeMap.ofProgram p) entries budget).unreachable := by
  obtain ⟨code, hresolved⟩ := exists_resolved hsmall hresolve hwords
  have hregular := hresolved.regular
  have hregion := region_analyze entries hbudget
  obtain ⟨hstage, hentries⟩ :=
    stage_analyze (CodeMap.ofProgram p) entries hbudget
  obtain ⟨m', s', hreaches, hrunning, hfetch⟩ := hexecutes
  have hfirst := Within.loaded
    (V := fun i => (analyze (CodeMap.ofProgram p) entries budget).visited.has i = true)
    hregular (hentries 0 hentry) m
  have hwithin := Within.of_reaches hregular hregion hfirst hreaches
  have hvisited := (hwithin.mem_of_fetch hregular hregion hrunning hfetch).2
  refine ⟨hvisited, ?_, ?_⟩
  · intro hop
    have hdecode := (Machine.decode?_of_fetch hfetch).2
    refine (hstage.exits d.position).mpr ⟨hvisited, ?_⟩
    simp only [CodeMap.isExitAt, CodeMap.ofProgram, hdecode, Option.any_some]
    rcases hop with hop | hop <;> rw [hop] <;> rfl
  · intro hmem
    have hmisses := (List.mem_filter.mp hmem).2
    rw [Analysis.misses, hvisited, Bool.not_true, Bool.and_false] at hmisses
    cases hmisses

/-- The `retn` of a called label is executed, visited and an exit. -/
theorem visited_of_executes_of_call :
    Machine.Executes ScriptedHost.answer ⟨#[30, 2, 32, 18, 7, 31]⟩
        ((Machine.new { memorySize := 0 }).loaded ⟨#[30, 2, 32, 18, 7, 31]⟩, {})
        { op := .retn, position := 5 } ∧
      (analyze (CodeMap.ofProgram ⟨#[30, 2, 32, 18, 7, 31]⟩) [0] 6).exits.has 5 = true ∧
      5 ∉ (report (CodeMap.ofProgram ⟨#[30, 2, 32, 18, 7, 31]⟩) [0] 6).unreachable := by
  have hresolve : Label.resolve #[30, 7, 32, 18, 7, 31] = .ok ⟨#[30, 2, 32, 18, 7, 31]⟩ := by
    with_unfolding_all rfl
  have hexecutes : Machine.Executes ScriptedHost.answer
      ⟨#[30, 2, 32, 18, 7, 31]⟩
      ((Machine.new { memorySize := 0 }).loaded ⟨#[30, 2, 32, 18, 7, 31]⟩, {})
      { op := .retn, position := 5 } := by
    refine ⟨_, _, Machine.reaches_of_advance (n := 2) (c := (_, _)) rfl ?_, ?_, ?_⟩
    · intro t hstatus
      cases hstatus
    · rfl
    · rfl
  have hcovered := visited_of_executes (by decide) hresolve (by decide +kernel)
    (List.mem_singleton_self 0) (Nat.le_refl 6) _ _ _ hexecutes
  exact ⟨hexecutes, hcovered.2.1 (Or.inr rfl), hcovered.2.2⟩

end Flow

end WordMachine
