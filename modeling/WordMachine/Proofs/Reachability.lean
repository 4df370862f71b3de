import Mathlib.Data.List.Nodup
import Mathlib.Order.Bounds.Basic
import WordMachine.Proofs.Coverage

/-!
# What an analysis finds

`Flow.analyze` keeps a queue in which a position may stand several times, passes over what it has
visited before and takes down edges on the way.  Here its findings are described without the queue:

* the visited positions are the least set that contains the entries and is `Closed` under `Follows`,
  which says where control can go from an instruction;
* the edges are those of the visited instructions, each of them once (`Recorded`).

Nothing in this description depends on the order of the entries, and neither do the findings
(`analyze_finds`).  `Turns` counts the turns of the loop: it ends with them, because every turn but
one for each entry is owed to an edge, and an instruction start has at most two edges.
-/

namespace WordMachine

namespace Marks

theorem nodup_toList (m : Marks) : m.toList.Nodup := List.nodup_range.filter _

/-- A new mark adds one position to the list. -/
theorem toList_mark_perm {m : Marks} {i : Nat} (hlt : i < m.size) (hnew : m.has i = false) :
    (m.mark i).toList.Perm (i :: m.toList) := by
  have hfresh : (i :: m.toList).Nodup := by
    rw [List.nodup_cons, mem_toList, hnew]
    exact ⟨Bool.false_ne_true, m.nodup_toList⟩
  rw [List.perm_ext_iff_of_nodup (m.mark i).nodup_toList hfresh]
  intro j
  rw [mem_toList, has_mark_iff hlt, List.mem_cons, mem_toList, or_comm, @eq_comm _ j]

theorem ext_has {m m' : Marks} (hsize : m.size = m'.size) (hhas : ∀ i, m.has i = m'.has i) :
    m = m' := by
  have hflags : m.flags.toList = m'.flags.toList := by
    rw [toList_flags, toList_flags, hsize, funext hhas]
  cases m
  cases m'
  exact congrArg Marks.mk (Array.toList_inj.mp hflags)

end Marks

namespace Flow

open scoped List

variable {c : CodeMap} {queue rest : List Nat} {a a' : Analysis} {i budget size : Nat}
  {d : Instruction} {e : Edge}

/-! ## Where control can go -/

/-- Whether control can go from an instruction to a position in a certain way. -/
def Follows (d : Instruction) (target : Int) : EdgeKind → Prop
  | .branch => d.op = .jump .always ∧ target = d.destination
  | .condBranch => (∃ condition ≠ .always, d.op = .jump condition) ∧ target = d.destination
  | .call => d.op = .call ∧ target = d.destination
  | .fallthrough =>
    (d.op ≠ .jump .always ∧ d.op ≠ .retn ∧ d.op ≠ .halt) ∧ target = d.next

/-- A set of positions that contains the entries at which instructions start, and with an
instruction every instruction start that control can go to from it. -/
structure Closed (c : CodeMap) (entries : List Nat) (V : Set Nat) : Prop where
  entry : ∀ i ∈ entries, c.starts.has i = true → i ∈ V
  follow : ∀ i ∈ V, ∀ d, decode? c.program.words i = some d → ∀ (j : Nat) kind, Follows d j kind →
    c.starts.has j = true → j ∈ V

theorem edgesOf_of_not_transfers (size : Nat) (hop : d.op.transfers = false) :
    edgesOf size d =
      if d.next < size then [⟨d.position, d.next, .fallthrough⟩] else [] := by
  unfold edgesOf
  cases hcase : d.op with
  | jump | call | retn | halt => rw [hcase] at hop; cases hop
  | _ => rfl

theorem refersToLabel_of_not_transfers {op : Op} (hop : op.transfers = false) :
    op.refersToLabel = false := by
  rw [Bool.eq_false_iff]
  intro hrefers
  rcases Label.jump_or_call_of_refersToLabel hrefers with ⟨condition, rfl⟩ | rfl <;> cases hop

/-- An instruction has an edge for each way in which control can leave it, except that an
instruction other than a jump or a call has none to the end of the program. -/
theorem mem_edgesOf_iff :
    e ∈ edgesOf size d ↔ e.source = d.position ∧ Follows d e.target e.kind ∧
      (d.op.refersToLabel = true ∨ e.target < size) := by
  obtain ⟨source, target, kind⟩ := e
  by_cases htransfers : d.op.transfers = true
  · cases hop : d.op with
    | jump condition =>
        have hrefers : (Op.jump condition).refersToLabel = true := rfl
        cases condition <;> cases kind <;> simp [edgesOf, Follows, hop, hrefers]
    | call =>
        have hrefers : Op.call.refersToLabel = true := rfl
        cases kind <;> simp [edgesOf, Follows, hop, hrefers]
    | halt | retn => cases kind <;> simp [edgesOf, Follows, hop]
    | _ => rw [hop] at htransfers; cases htransfers
  · have hplain := Bool.eq_false_iff.mpr htransfers
    have hjump : ∀ condition, d.op ≠ .jump condition := fun condition hop => by
      rw [hop] at hplain
      cases hplain
    have hcall : d.op ≠ .call := fun hop => by rw [hop] at hplain; cases hplain
    have hstop : d.op ≠ .retn ∧ d.op ≠ .halt := by
      constructor <;> intro hop <;> rw [hop] at hplain <;> cases hplain
    rw [edgesOf_of_not_transfers size hplain, refersToLabel_of_not_transfers hplain]
    cases kind with
    | fallthrough =>
        simp only [Follows, List.mem_ite_nil_right, List.mem_singleton, Edge.mk.injEq, and_true,
          Bool.false_eq_true, false_or]
        constructor
        · rintro ⟨hinside, rfl, rfl⟩
          exact ⟨rfl, ⟨⟨hjump _, hstop⟩, rfl⟩, Int.ofNat_lt.mpr hinside⟩
        · rintro ⟨rfl, ⟨-, rfl⟩, hinside⟩
          exact ⟨Int.ofNat_lt.mp hinside, rfl, rfl⟩
    | _ => simp [Follows, hjump, hcall]

theorem nodup_edgesOf (size : Nat) (d : Instruction) : (edgesOf size d).Nodup := by
  unfold edgesOf
  split
  · simp
  · simp
  · simp
  · simp
  · simp
  · split <;> simp

theorem length_edgesOf_le (size : Nat) (d : Instruction) : (edgesOf size d).length ≤ 2 := by
  unfold edgesOf
  split
  · simp
  · simp
  · simp
  · simp
  · simp
  · split <;> simp

/-! ## The edges that are taken down -/

theorem mem_edgesAt_iff :
    e ∈ c.edgesAt i ↔ ∃ d, decode? c.program.words i = some d ∧ e ∈ edgesOf c.program.size d := by
  unfold CodeMap.edgesAt
  split
  · next d hdecode => simp [hdecode]
  · next hdecode => simp [hdecode]

theorem source_of_mem_edgesAt (he : e ∈ c.edgesAt i) : e.source = i := by
  obtain ⟨d, hdecode, hedge⟩ := mem_edgesAt_iff.mp he
  rw [(mem_edgesOf_iff.mp hedge).1, position_of_decode? hdecode]

theorem nodup_edgesAt (c : CodeMap) (i : Nat) : (c.edgesAt i).Nodup := by
  unfold CodeMap.edgesAt
  split
  · exact nodup_edgesOf ..
  · exact List.nodup_nil

theorem length_edgesAt_le (c : CodeMap) (i : Nat) : (c.edgesAt i).length ≤ 2 := by
  unfold CodeMap.edgesAt
  split
  · exact length_edgesOf_le ..
  · exact Nat.zero_le _

/-- The edges that have been taken down are those of the visited positions. -/
def Recorded (c : CodeMap) (a : Analysis) : Prop :=
  a.edges.toList.Perm (a.visited.toList.flatMap c.edgesAt)

namespace Recorded

theorem start (c : CodeMap) : Recorded c (Analysis.start c) := by
  have hnone : (Analysis.start c).visited.toList = [] := by
    simp [Analysis.start, Marks.toList]
  unfold Recorded
  rw [hnone]
  exact .refl _

theorem visit (hrecorded : Recorded c a) (hlt : i < a.visited.size)
    (hnew : a.visited.has i = false) : Recorded c (a.visit c i) := by
  have hmarks : (a.visit c i).visited.toList.Perm (i :: a.visited.toList) :=
    Marks.toList_mark_perm hlt hnew
  calc (a.visit c i).edges.toList
      = a.edges.toList ++ c.edgesAt i := Array.toList_appendList
    _ ~ c.edgesAt i ++ a.edges.toList := List.perm_append_comm
    _ ~ c.edgesAt i ++ a.visited.toList.flatMap c.edgesAt := hrecorded.append_left _
    _ ~ (a.visit c i).visited.toList.flatMap c.edgesAt := (hmarks.flatMap_right _).symm

end Recorded

/-! ## What the walk keeps -/

/-- What every turn of a walk keeps holds at its end, for some rest of the queue. -/
theorem exists_of_explore {P : List Nat → Analysis → Prop}
    (hskip : ∀ i rest a, P (i :: rest) a → a.visited.has i = true → P rest a)
    (hvisit : ∀ i rest a, P (i :: rest) a → a.visited.has i = false →
      P (rest ++ (c.edgesAt i).filterMap c.landing?) (a.visit c i))
    (budget : Nat) (hstart : P queue a) : ∃ left, P left (explore c budget queue a) := by
  fun_induction explore c budget queue a with
  | case1 queue a => exact ⟨queue, hstart⟩
  | case2 a budget => exact ⟨[], hstart⟩
  | case3 a budget i rest hvisited ih => exact ih (hskip i rest a hstart hvisited)
  | case4 a budget i rest hnew ih => exact ih (hvisit i rest a hstart (by simpa using hnew))

/-- Whatever the budget, the edges of an analysis are those of instruction starts that it has
visited. -/
theorem recorded_analyze (c : CodeMap) (entries : List Nat) (budget : Nat) :
    (∃ left, Stage c left (analyze c entries budget)) ∧ Recorded c (analyze c entries budget) := by
  have hstart : Stage c (entries.filter c.starts.has) (Analysis.start c) :=
    .start fun i hi => (List.mem_filter.mp hi).2
  obtain ⟨left, hstage, hrecorded⟩ :=
    exists_of_explore (P := fun queue a => Stage c queue a ∧ Recorded c a)
      (fun i rest a h hvisited => ⟨h.1.skip hvisited, h.2⟩)
      (fun i rest a h hnew => by
        have hlt : i < a.visited.size := by
          rw [h.1.size_visited]
          exact c.lt_size_of_start (h.1.queued i (List.mem_cons_self ..))
        exact ⟨h.1.visit, h.2.visit hlt hnew⟩)
      budget ⟨hstart, .start c⟩
  exact ⟨⟨left, hstage⟩, hrecorded⟩

theorem Recorded.mem_iff (hrecorded : Recorded c a) :
    e ∈ a.edges ↔ a.visited.has e.source = true ∧ e ∈ c.edgesAt e.source := by
  rw [← Array.mem_toList_iff, List.Perm.mem_iff hrecorded, List.mem_flatMap]
  constructor
  · rintro ⟨i, hi, he⟩
    obtain rfl := source_of_mem_edgesAt he
    exact ⟨Marks.mem_toList.mp hi, he⟩
  · rintro ⟨hvisited, he⟩
    exact ⟨e.source, Marks.mem_toList.mpr hvisited, he⟩

theorem Recorded.nodup (hrecorded : Recorded c a) : a.edges.toList.Nodup := by
  rw [hrecorded.nodup_iff, List.nodup_flatMap]
  refine ⟨fun i _ => nodup_edgesAt c i, a.visited.nodup_toList.imp ?_⟩
  intro i j hne e hi hj
  exact hne ((source_of_mem_edgesAt hi).symm.trans (source_of_mem_edgesAt hj))

/-- A closed set contains the instruction starts that the edges of its elements lead to. -/
theorem Closed.landing {entries : List Nat} {V : Set Nat} {j : Nat} (hclosed : Closed c entries V)
    (hi : i ∈ V) (he : e ∈ c.edgesAt i) (hland : c.landing? e = some j) : j ∈ V := by
  obtain ⟨d, hdecode, hedge⟩ := mem_edgesAt_iff.mp he
  obtain ⟨htarget, hstart⟩ := landing?_eq_some_iff.mp hland
  have hfollows := (mem_edgesOf_iff.mp hedge).2.1
  rw [htarget] at hfollows
  exact hclosed.follow i hi d hdecode j e.kind hfollows hstart

/-- An analysis visits nothing outside a closed set. -/
theorem mem_of_visited {entries : List Nat} {V : Set Nat} (hclosed : Closed c entries V)
    (budget : Nat) (hvisited : (analyze c entries budget).visited.has i = true) : i ∈ V := by
  have hstart : (∀ j, (Analysis.start c).visited.has j = true → j ∈ V) ∧
      ∀ j ∈ entries.filter c.starts.has, j ∈ V := by
    constructor
    · intro j hj
      simp [Analysis.start] at hj
    · intro j hj
      exact hclosed.entry j (List.mem_filter.mp hj).1 (List.mem_filter.mp hj).2
  obtain ⟨left, hinside, -⟩ :=
    exists_of_explore (c := c)
      (P := fun queue a => (∀ j, a.visited.has j = true → j ∈ V) ∧ ∀ j ∈ queue, j ∈ V)
      (fun i rest a h _ => ⟨h.1, fun j hj => h.2 j (List.mem_cons_of_mem _ hj)⟩)
      (fun i rest a h _ => by
        have hi : i ∈ V := h.2 i (List.mem_cons_self ..)
        constructor
        · intro j hj
          have hmarked : a.visited.has j = true ∨ i = j ∧ j < a.visited.size := by
            simpa [Analysis.visit, Marks.has_mark] using hj
          rcases hmarked with hold | ⟨rfl, -⟩
          · exact h.1 j hold
          · exact hi
        · intro j hj
          rcases List.mem_append.mp hj with hrest | hnew
          · exact h.2 j (List.mem_cons_of_mem _ hrest)
          · obtain ⟨e, he, hland⟩ := List.mem_filterMap.mp hnew
            exact hclosed.landing hi he hland)
      budget hstart
  exact hinside i hvisited

/-! ## The turns of the loop -/

/-- The loop of a walk: with a budget of visits, from a queue and what has been found before, it
ends after a number of turns with certain findings.  Every turn takes a position off the queue, also
the turn that finds the budget used up. -/
inductive Turns (c : CodeMap) : Nat → List Nat → Analysis → Nat → Analysis → Prop
  | done (budget : Nat) (a : Analysis) : Turns c budget [] a 0 a
  | spent (i : Nat) (rest : List Nat) (a : Analysis) : Turns c 0 (i :: rest) a 1 a
  | skip {budget i n : Nat} {rest : List Nat} {a a' : Analysis} (hvisited : a.visited.has i = true)
      (hrest : Turns c (budget + 1) rest a n a') : Turns c (budget + 1) (i :: rest) a (n + 1) a'
  | visit {budget i n : Nat} {rest : List Nat} {a a' : Analysis} (hnew : a.visited.has i = false)
      (hrest : Turns c budget (rest ++ (c.edgesAt i).filterMap c.landing?) (a.visit c i) n a') :
      Turns c (budget + 1) (i :: rest) a (n + 1) a'

/-- A visit puts at most two positions on the queue, so the turns that are left are at most one for
each position on it and two for each instruction start that has not been visited. -/
theorem exists_turns (budget : Nat) (hstage : Stage c queue a) :
    ∃ n, Turns c budget queue a n (explore c budget queue a) ∧
      n + 2 * a.visited.count ≤ queue.length + 2 * c.starts.count := by
  fun_induction explore c budget queue a with
  | case1 queue a =>
      have hcount := Marks.count_le hstage.size_visited_eq hstage.visited
      cases queue with
      | nil => exact ⟨0, .done 0 a, by omega⟩
      | cons i rest => exact ⟨1, .spent i rest a, by rw [List.length_cons]; omega⟩
  | case2 a budget =>
      have hcount := Marks.count_le hstage.size_visited_eq hstage.visited
      exact ⟨0, .done _ a, by omega⟩
  | case3 a budget i rest hvisited ih =>
      obtain ⟨n, hturns, hle⟩ := ih (hstage.skip hvisited)
      exact ⟨n + 1, .skip hvisited hturns, by rw [List.length_cons]; omega⟩
  | case4 a budget i rest hnew ih =>
      obtain ⟨n, hturns, hle⟩ := ih hstage.visit
      have hfresh : a.visited.has i = false := by simpa using hnew
      have hcount := hstage.count_visit hfresh
      have hqueued : ((c.edgesAt i).filterMap c.landing?).length ≤ 2 :=
        Nat.le_trans (List.length_filterMap_le ..) (length_edgesAt_le c i)
      refine ⟨n + 1, .visit hfresh hturns, ?_⟩
      rw [List.length_append] at hle
      rw [List.length_cons]
      omega

/-! ## The findings -/

/-- What there is to find in a program from some entries, without regard to how it is found. -/
structure Finds (c : CodeMap) (entries : List Nat) (a : Analysis) : Prop where
  visited : IsLeast {V | Closed c entries V} {i | a.visited.has i = true}
  exits : ∀ i, a.exits.has i = true ↔ a.visited.has i = true ∧
    ∃ d, decode? c.program.words i = some d ∧ (d.op = .halt ∨ d.op = .retn)
  /-- No edge is taken down twice. -/
  nodup : a.edges.toList.Nodup
  edges : ∀ e, e ∈ a.edges ↔ a.visited.has e.source = true ∧
    ∃ d, decode? c.program.words e.source = some d ∧ Follows d e.target e.kind ∧
      (d.op.refersToLabel = true ∨ e.target < c.program.size)

theorem isExit_iff {op : Op} : isExit op = true ↔ op = .halt ∨ op = .retn := by
  cases op <;> simp [isExit]

theorem isExitAt_iff : c.isExitAt i = true ↔
    ∃ d, decode? c.program.words i = some d ∧ (d.op = .halt ∨ d.op = .retn) := by
  simp only [CodeMap.isExitAt, Option.any_eq_true, isExit_iff]

theorem mem_edgesAt_source_iff : e ∈ c.edgesAt e.source ↔
    ∃ d, decode? c.program.words e.source = some d ∧ Follows d e.target e.kind ∧
      (d.op.refersToLabel = true ∨ e.target < c.program.size) := by
  rw [mem_edgesAt_iff]
  refine exists_congr fun d => and_congr_right fun hdecode => ?_
  rw [mem_edgesOf_iff, position_of_decode? hdecode, eq_self_iff_true, true_and]

/-- What an analysis has visited is closed, if it has had a visit for each instruction start. -/
theorem closed_analyze (c : CodeMap) (entries : List Nat) (hbudget : c.starts.count ≤ budget) :
    Closed c entries {i | (analyze c entries budget).visited.has i = true} := by
  obtain ⟨hstage, hentries⟩ := stage_analyze_of_count_le c entries hbudget
  refine ⟨hentries, ?_⟩
  intro i hi d hdecode j kind hfollows hstart
  have hlt : (j : Int) < c.program.size := Int.ofNat_lt.mpr (c.lt_size_of_start hstart)
  have hedge : ⟨i, j, kind⟩ ∈ c.edgesAt i :=
    mem_edgesAt_source_iff.mpr ⟨d, hdecode, hfollows, Or.inr hlt⟩
  rcases hstage.follow i hi _ hedge j (landing?_eq_some_iff.mpr ⟨rfl, hstart⟩) with hdone | hnil
  · exact hdone
  · cases hnil

theorem finds_analyze (c : CodeMap) (entries : List Nat) (hbudget : c.starts.count ≤ budget) :
    Finds c entries (analyze c entries budget) := by
  obtain ⟨hstage, -⟩ := stage_analyze_of_count_le c entries hbudget
  have hrecorded := (recorded_analyze c entries budget).2
  refine ⟨⟨closed_analyze c entries hbudget, ?_⟩, ?_, hrecorded.nodup, ?_⟩
  · intro V hclosed i hvisited
    exact mem_of_visited hclosed budget hvisited
  · intro i
    rw [hstage.exits, isExitAt_iff]
  · intro e
    rw [hrecorded.mem_iff, mem_edgesAt_source_iff]

/-- There is nothing else to find: two analyses with the same least set agree. -/
theorem Finds.agree {entries entries' : List Nat} (hfinds : Finds c entries a)
    (hfinds' : Finds c entries' a') (hsize : a.visited.size = a'.visited.size)
    (hexits : a.exits.size = a'.exits.size) (hentries : ∀ i, i ∈ entries' ↔ i ∈ entries) :
    a'.visited = a.visited ∧ a'.exits = a.exits ∧ a'.edges.toList.Perm a.edges.toList := by
  have hclosed : ∀ V, Closed c entries' V ↔ Closed c entries V := by
    intro V
    constructor
    · intro h
      exact ⟨fun i hi => h.entry i ((hentries i).mpr hi), h.follow⟩
    · intro h
      exact ⟨fun i hi => h.entry i ((hentries i).mp hi), h.follow⟩
  have hleast := hfinds'.visited
  simp only [hclosed] at hleast
  have hvisited : ∀ i, a'.visited.has i = a.visited.has i := by
    intro i
    rw [Bool.eq_iff_iff]
    exact Set.ext_iff.mp (hleast.unique hfinds.visited) i
  refine ⟨Marks.ext_has hsize.symm hvisited, Marks.ext_has hexits.symm ?_, ?_⟩
  · intro i
    rw [Bool.eq_iff_iff, hfinds.exits, hfinds'.exits, hvisited]
  · rw [List.perm_ext_iff_of_nodup hfinds'.nodup hfinds.nodup]
    intro e
    rw [Array.mem_toList_iff, Array.mem_toList_iff, hfinds.edges, hfinds'.edges, hvisited]

/-- With a visit for each instruction start, an analysis comes to its end after at most one turn for
each entry and two for each instruction start, and it finds what there is to find, in whatever order
and however often the entries are given. -/
theorem analyze_finds (c : CodeMap) (entries : List Nat) (hbudget : c.starts.count ≤ budget) :
    (∃ n ≤ entries.length + 2 * c.starts.count,
      Turns c budget (entries.filter c.starts.has) (Analysis.start c) n
        (analyze c entries budget)) ∧
    Finds c entries (analyze c entries budget) ∧
    ∀ entries' budget', (∀ i, i ∈ entries' ↔ i ∈ entries) → c.starts.count ≤ budget' →
      (analyze c entries' budget').visited = (analyze c entries budget).visited ∧
      (analyze c entries' budget').exits = (analyze c entries budget).exits ∧
      (analyze c entries' budget').edges.toList.Perm (analyze c entries budget).edges.toList := by
  have hfinds := finds_analyze c entries hbudget
  obtain ⟨hstage, -⟩ := stage_analyze_of_count_le c entries hbudget
  refine ⟨?_, hfinds, ?_⟩
  · have hstart : Stage c (entries.filter c.starts.has) (Analysis.start c) :=
      .start fun i hi => (List.mem_filter.mp hi).2
    obtain ⟨n, hturns, hle⟩ := exists_turns budget hstart
    have hfilter : (entries.filter c.starts.has).length ≤ entries.length :=
      List.length_filter_le ..
    exact ⟨n, by omega, hturns⟩
  · intro entries' budget' hentries hbudget'
    obtain ⟨hstage', -⟩ := stage_analyze_of_count_le c entries' hbudget'
    exact hfinds.agree (finds_analyze c entries' hbudget')
      (hstage.size_visited.trans hstage'.size_visited.symm)
      (hstage.size_exits.trans hstage'.size_exits.symm) hentries

/-- A loop with a jump out of the program, in front of a word that is no opcode.  One entry is given
twice, and one is no instruction start. -/
theorem analyze_finds_of_loop :
    (CodeMap.ofProgram ⟨#[20, -1, 19, -2, 99]⟩).starts.count ≤ 3 ∧
      (∃ n ≤ 9, Turns (CodeMap.ofProgram ⟨#[20, -1, 19, -2, 99]⟩) 3 [0, 0]
        (Analysis.start (CodeMap.ofProgram ⟨#[20, -1, 19, -2, 99]⟩)) n
        (analyze (CodeMap.ofProgram ⟨#[20, -1, 19, -2, 99]⟩) [0, 0, 1] 3)) ∧
      (analyze (CodeMap.ofProgram ⟨#[20, -1, 19, -2, 99]⟩) [1, 0] 3).edges.toList.Perm
        [⟨0, -1, .condBranch⟩, ⟨0, 2, .fallthrough⟩, ⟨2, 0, .branch⟩] := by
  have hcount : (CodeMap.ofProgram ⟨#[20, -1, 19, -2, 99]⟩).starts.count = 3 := by decide +kernel
  have hfilter : [0, 0, 1].filter (CodeMap.ofProgram ⟨#[20, -1, 19, -2, 99]⟩).starts.has =
      [0, 0] := by decide +kernel
  -- the first jump leads out of the program, the second one back to the first
  have hfirst : ((CodeMap.ofProgram ⟨#[20, -1, 19, -2, 99]⟩).edgesAt 0).filterMap
      (CodeMap.ofProgram ⟨#[20, -1, 19, -2, 99]⟩).landing? = [2] := by decide +kernel
  have hsecond : ((CodeMap.ofProgram ⟨#[20, -1, 19, -2, 99]⟩).edgesAt 2).filterMap
      (CodeMap.ofProgram ⟨#[20, -1, 19, -2, 99]⟩).landing? = [0] := by decide +kernel
  have hedges : (analyze (CodeMap.ofProgram ⟨#[20, -1, 19, -2, 99]⟩) [0, 0, 1] 3).edges.toList =
      [⟨0, -1, .condBranch⟩, ⟨0, 2, .fallthrough⟩, ⟨2, 0, .branch⟩] := by
    rw [analyze, hfilter, explore_of_new (by decide +kernel), hfirst, List.singleton_append,
      explore_of_visited (by decide +kernel), explore_of_new (by decide +kernel), hsecond,
      List.nil_append, explore_of_visited (by decide +kernel), explore_nil]
    decide +kernel
  obtain ⟨⟨n, hle, hturns⟩, -, hagree⟩ :=
    analyze_finds (CodeMap.ofProgram ⟨#[20, -1, 19, -2, 99]⟩) [0, 0, 1] (Nat.le_of_eq hcount)
  rw [hcount] at hle
  rw [hfilter] at hturns
  obtain ⟨-, -, hperm⟩ := hagree [1, 0] 3 (by simp; omega) (Nat.le_of_eq hcount)
  rw [hedges] at hperm
  exact ⟨Nat.le_of_eq hcount, ⟨n, hle, hturns⟩, hperm⟩

end Flow

end WordMachine
