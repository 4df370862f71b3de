import WordMachine.Proofs.Reachability

/-!
# What the budget of an analysis does

`Flow.explore` makes no more visits than its budget allows, and looks at the budget before it looks
whether the position at the head of the queue has been visited.  `Exhausts` is the same walk without
a budget: it ends when its queue is empty.

* `exists_explore_add`: a walk may be interrupted and taken up again where its queue stands.
* `Extends`, `extends_explore`: a walk only adds to what has been found before.
* `Exhausts.count_explore`: a walk makes all the visits of its budget, or else all there are.

So a smaller budget cuts the walk short and changes nothing else (`budget_cuts_short`).  No visit is
cut in two: whatever has been visited has all its edges taken down.
-/

namespace WordMachine.Flow

variable {c : CodeMap} {queue rest entries : List Nat} {a a' a'' : Analysis} {i budget : Nat}

/-! ## Going on with a walk -/

/-- A walk with a larger budget goes on from where the smaller one has been used up. -/
theorem exists_explore_add (c : CodeMap) (budget : Nat) (queue : List Nat) (a : Analysis) :
    ∃ left, ∀ more,
      explore c (budget + more) queue a = explore c more left (explore c budget queue a) := by
  fun_induction explore c budget queue a with
  | case1 queue a => exact ⟨queue, fun more => by rw [Nat.zero_add]⟩
  | case2 a budget => exact ⟨[], fun more => by rw [explore_nil, explore_nil]⟩
  | case3 a budget i rest hvisited ih =>
      obtain ⟨left, hleft⟩ := ih
      refine ⟨left, fun more => ?_⟩
      calc explore c (budget + 1 + more) (i :: rest) a
          = explore c (budget + more + 1) (i :: rest) a := by rw [Nat.add_right_comm]
        _ = explore c (budget + 1 + more) rest a := by
          rw [explore_of_visited hvisited, Nat.add_right_comm]
        _ = explore c more left (explore c (budget + 1) rest a) := hleft more
  | case4 a budget i rest hnew ih =>
      obtain ⟨left, hleft⟩ := ih
      refine ⟨left, fun more => ?_⟩
      have hfresh : a.visited.has i = false := by simpa using hnew
      calc explore c (budget + 1 + more) (i :: rest) a
          = explore c (budget + more + 1) (i :: rest) a := by rw [Nat.add_right_comm]
        _ = explore c (budget + more) (rest ++ (c.edgesAt i).filterMap c.landing?)
              (a.visit c i) := explore_of_new hfresh ..
        _ = _ := hleft more

/-! ## What has been found stays found -/

/-- One analysis has found what another one has, and has taken down its edges after the same
ones. -/
structure Extends (a a' : Analysis) : Prop where
  visited : ∀ i, a.visited.has i = true → a'.visited.has i = true
  exits : ∀ i, a.exits.has i = true → a'.exits.has i = true
  edges : a.edges.toList <+: a'.edges.toList

namespace Extends

theorem refl (a : Analysis) : Extends a a := ⟨fun _ h => h, fun _ h => h, List.prefix_refl _⟩

theorem trans (hfirst : Extends a a') (hsecond : Extends a' a'') : Extends a a'' where
  visited i h := hsecond.visited i (hfirst.visited i h)
  exits i h := hsecond.exits i (hfirst.exits i h)
  edges := hfirst.edges.trans hsecond.edges

theorem visit (c : CodeMap) (a : Analysis) (i : Nat) : Extends a (a.visit c i) where
  visited j hj := by
    show (a.visited.mark i).has j = true
    rw [Marks.has_mark, hj, Bool.true_or]
  exits j hj := by
    show (if c.isExitAt i then a.exits.mark i else a.exits).has j = true
    split
    · rw [Marks.has_mark, hj, Bool.true_or]
    · exact hj
  edges := by
    show a.edges.toList <+: (a.edges ++ c.edgesAt i).toList
    rw [Array.toList_appendList]
    exact List.prefix_append ..

end Extends

theorem extends_explore (c : CodeMap) (budget : Nat) (queue : List Nat) (a : Analysis) :
    Extends a (explore c budget queue a) := by
  obtain ⟨-, hextends⟩ := exists_of_explore (c := c) (P := fun _ => Extends a)
    (fun _ _ _ h _ => h) (fun i _ a' h _ => h.trans (.visit c a' i)) budget (.refl a)
  exact hextends

theorem extends_analyze (c : CodeMap) (entries : List Nat) {m m' : Nat} (hle : m ≤ m') :
    Extends (analyze c entries m) (analyze c entries m') := by
  obtain ⟨more, rfl⟩ := Nat.exists_eq_add_of_le hle
  obtain ⟨left, hleft⟩ :=
    exists_explore_add c m (entries.filter c.starts.has) (Analysis.start c)
  unfold analyze
  rw [hleft]
  exact extends_explore ..

/-! ## The walk without a budget -/

/-- The loop of a walk that has no budget: from a queue and what has been found before, it comes to
an empty queue with certain findings. -/
inductive Exhausts (c : CodeMap) : List Nat → Analysis → Analysis → Prop
  | done (a : Analysis) : Exhausts c [] a a
  | skip {i : Nat} {rest : List Nat} {a a' : Analysis} (hvisited : a.visited.has i = true)
      (hrest : Exhausts c rest a a') : Exhausts c (i :: rest) a a'
  | visit {i : Nat} {rest : List Nat} {a a' : Analysis} (hnew : a.visited.has i = false)
      (hrest : Exhausts c (rest ++ (c.edgesAt i).filterMap c.landing?) (a.visit c i) a') :
      Exhausts c (i :: rest) a a'

/-- A queue of visited positions is passed over. -/
theorem exhausts_of_visited (hvisited : ∀ i ∈ queue, a.visited.has i = true) :
    Exhausts c queue a a := by
  induction queue with
  | nil => exact .done a
  | cons i rest ih =>
      exact .skip (hvisited i (List.mem_cons_self ..))
        (ih fun j hj => hvisited j (List.mem_cons_of_mem _ hj))

/-- A walk with a visit for each instruction start is one without a budget. -/
theorem exhausts_explore (hstage : Stage c queue a)
    (hbudget : c.starts.count ≤ a.visited.count + budget) :
    Exhausts c queue a (explore c budget queue a) := by
  fun_induction explore c budget queue a with
  | case1 queue a => exact exhausts_of_visited (hstage.of_count hbudget).2
  | case2 a budget => exact .done a
  | case3 a budget i rest hvisited ih => exact .skip hvisited (ih (hstage.skip hvisited) hbudget)
  | case4 a budget i rest hnew ih =>
      have hfresh : a.visited.has i = false := by simpa using hnew
      have hcount := hstage.count_visit hfresh
      exact .visit hfresh (ih hstage.visit (by omega))

namespace Exhausts

theorem count_le (hexhausts : Exhausts c queue a a') (hstage : Stage c queue a) :
    a.visited.count ≤ a'.visited.count := by
  induction hexhausts with
  | done a => exact Nat.le_refl _
  | skip hvisited _ ih => exact ih (hstage.skip hvisited)
  | visit hnew _ ih =>
      have hcount := hstage.count_visit hnew
      have hle := ih hstage.visit
      omega

/-- A walk makes as many visits as its budget allows, unless there are fewer to be made. -/
theorem count_explore (hexhausts : Exhausts c queue a a') (hstage : Stage c queue a)
    (budget : Nat) :
    (explore c budget queue a).visited.count = min (a.visited.count + budget) a'.visited.count := by
  induction hexhausts generalizing budget with
  | done a => rw [explore_nil, Nat.min_eq_right (Nat.le_add_right ..)]
  | @skip i rest a a' hvisited hrest ih =>
      cases budget with
      | zero =>
          have hle := hrest.count_le (hstage.skip hvisited)
          rw [explore_zero, Nat.add_zero, Nat.min_eq_left hle]
      | succ budget =>
          rw [explore_of_visited hvisited]
          exact ih (hstage.skip hvisited) (budget + 1)
  | @visit i rest a a' hnew hrest ih =>
      have hcount := hstage.count_visit hnew
      cases budget with
      | zero =>
          have hle := hrest.count_le hstage.visit
          rw [explore_zero, Nat.add_zero, Nat.min_eq_left (by omega)]
      | succ budget =>
          rw [explore_of_new hnew, ih hstage.visit budget, hcount, Nat.add_right_comm,
            Nat.add_assoc]

/-- With a budget that is large enough, a walk finds what the walk without a budget finds. -/
theorem explore_eq (hexhausts : Exhausts c queue a a') (hstage : Stage c queue a)
    (hbudget : a'.visited.count ≤ a.visited.count + budget) : explore c budget queue a = a' := by
  induction hexhausts generalizing budget with
  | done a => exact explore_nil ..
  | @skip i rest a a' hvisited hrest ih =>
      cases budget with
      | zero =>
          have h := ih (hstage.skip hvisited) hbudget
          rwa [explore_zero] at h ⊢
      | succ budget =>
          rw [explore_of_visited hvisited]
          exact ih (hstage.skip hvisited) hbudget
  | @visit i rest a a' hnew hrest ih =>
      have hcount := hstage.count_visit hnew
      have hle := hrest.count_le hstage.visit
      cases budget with
      | zero => omega
      | succ budget =>
          rw [explore_of_new hnew]
          exact ih hstage.visit (by omega)

end Exhausts

/-! ## The budget -/

/-- The budget of an analysis only cuts the walk short.  The walk without a budget comes to an end,
and a budget is the number of its visits that are made.  With a larger budget nothing is lost, and
the edges that were taken down before come first.  Whatever the budget, the edges are those of the
instructions that have been visited, and none of these edges is missing. -/
theorem budget_cuts_short (c : CodeMap) (entries : List Nat) :
    ∃ all, Exhausts c (entries.filter c.starts.has) (Analysis.start c) all ∧
      (∀ m, all.visited.count ≤ m → analyze c entries m = all) ∧
      ∀ m,
        (analyze c entries m).visited.count = min m all.visited.count ∧
        (∀ m', m ≤ m' → Extends (analyze c entries m) (analyze c entries m')) ∧
        (∀ e ∈ (analyze c entries m).edges, (analyze c entries m).visited.has e.source = true) ∧
        ∀ i, (analyze c entries m).visited.has i = true → ∀ d,
          decode? c.program.words i = some d → ∀ target kind, Follows d target kind →
          d.op.refersToLabel = true ∨ target < c.program.size →
          ⟨i, target, kind⟩ ∈ (analyze c entries m).edges := by
  have hstart : Stage c (entries.filter c.starts.has) (Analysis.start c) :=
    .start fun i hi => (List.mem_filter.mp hi).2
  have hzero : (Analysis.start c).visited.count = 0 := by
    rw [← Marks.length_toList]
    simp [Analysis.start, Marks.toList]
  have hexhausts : Exhausts c (entries.filter c.starts.has) (Analysis.start c)
      (analyze c entries c.starts.count) := exhausts_explore hstart (Nat.le_add_left ..)
  refine ⟨_, hexhausts, fun m hm => hexhausts.explore_eq hstart (by omega), fun m => ?_⟩
  have hrecorded := (recorded_analyze c entries m).2
  refine ⟨?_, fun m' hle => extends_analyze c entries hle, fun e he => (hrecorded.mem_iff.mp he).1,
    ?_⟩
  · have hcount := hexhausts.count_explore hstart m
    rwa [hzero, Nat.zero_add] at hcount
  · intro i hvisited d hdecode target kind hfollows hkept
    exact hrecorded.mem_iff.mpr
      ⟨hvisited, mem_edgesAt_source_iff.mpr ⟨d, hdecode, hfollows, hkept⟩⟩

/-- A conditional jump over one `hlt` to another.  The budget of one visit is used up with the jump
still in the queue, and both its edges are taken down. -/
theorem budget_cuts_short_of_jump :
    (∀ m, (analyze (CodeMap.ofProgram ⟨#[20, 3, 32, 32]⟩) [0, 0] m).visited.count = min m 3) ∧
      ⟨0, 2, .fallthrough⟩ ∈ (analyze (CodeMap.ofProgram ⟨#[20, 3, 32, 32]⟩) [0, 0] 1).edges ∧
      Extends (analyze (CodeMap.ofProgram ⟨#[20, 3, 32, 32]⟩) [0, 0] 1)
        (analyze (CodeMap.ofProgram ⟨#[20, 3, 32, 32]⟩) [0, 0] 2) := by
  obtain ⟨all, -, -, hbudget⟩ :=
    budget_cuts_short (CodeMap.ofProgram ⟨#[20, 3, 32, 32]⟩) [0, 0]
  have hfilter : [0, 0].filter (CodeMap.ofProgram ⟨#[20, 3, 32, 32]⟩).starts.has = [0, 0] := by
    decide +kernel
  have hjump : ((CodeMap.ofProgram ⟨#[20, 3, 32, 32]⟩).edgesAt 0).filterMap
      (CodeMap.ofProgram ⟨#[20, 3, 32, 32]⟩).landing? = [3, 2] := by decide +kernel
  have hstop : ∀ i ∈ [2, 3], ((CodeMap.ofProgram ⟨#[20, 3, 32, 32]⟩).edgesAt i).filterMap
      (CodeMap.ofProgram ⟨#[20, 3, 32, 32]⟩).landing? = [] := by decide +kernel
  have hcount :
      (analyze (CodeMap.ofProgram ⟨#[20, 3, 32, 32]⟩) [0, 0] 4).visited.count = 3 := by
    rw [analyze, hfilter, explore_of_new (by decide +kernel), hjump, List.singleton_append,
      explore_of_visited (by decide +kernel), explore_of_new (by decide +kernel),
      hstop 3 (by decide), List.append_nil, explore_of_new (by decide +kernel),
      hstop 2 (by decide), List.append_nil, explore_nil]
    decide +kernel
  have hfirst : (analyze (CodeMap.ofProgram ⟨#[20, 3, 32, 32]⟩) [0, 0] 1).visited.has 0 = true := by
    rw [analyze, hfilter, explore_of_new (by decide +kernel), explore_zero]
    decide +kernel
  have hall : all.visited.count = 3 := by
    have hfour := (hbudget 4).1
    omega
  obtain ⟨-, hextends, -, hkept⟩ := hbudget 1
  refine ⟨fun m => hall ▸ (hbudget m).1, ?_, hextends 2 (by decide)⟩
  exact hkept 0 hfirst { op := .jump .equal, position := 0, first := 3 } rfl 2 .fallthrough
    ⟨⟨by decide, by decide, by decide⟩, rfl⟩ (Or.inl rfl)

end WordMachine.Flow
