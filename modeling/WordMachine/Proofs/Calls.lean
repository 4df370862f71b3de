import WordMachine.Host.Scripted
import WordMachine.Proofs.Transfer

/-!
# Calls and returns

A call leaves its own position on the stack, and the return that takes it off again goes on behind
the call.  In between the program may push and pop, call and return as it likes, as long as it does
not take off what it found: entries below the position of the call are out of reach of a run that
never comes below the depth at which the call left the stack (`RunsAbove`).

Nothing is assumed of the program here.  It need not be readable as instructions from its first
word, and it may write the instruction pointer.
-/

namespace WordMachine

/-! ## The stack under a run -/

theorem Stack.push_of_not_isFull {t : Stack} (hroom : t.isFull = false) (v : Word) :
    ∃ t', t.push v = .ok t' := by
  unfold isFull at hroom
  unfold push
  split
  · next hfree => rw [hfree] at hroom; cases hroom
  · exact ⟨_, rfl⟩

/-- Stacks with the same entries and the same capacity are equal. -/
theorem Stack.eq_of_entries {t t' : Stack} (hentries : t.entries = t'.entries)
    (hcapacity : t.capacity = t'.capacity) : t = t' := by
  obtain ⟨entries, free⟩ := t
  obtain ⟨entries', free'⟩ := t'
  obtain rfl : entries = entries' := hentries
  have hfree : free = free' := by
    simp only [capacity, size] at hcapacity
    omega
  rw [hfree]

/-- Lower entries stay where they are until the stack is less deep than they are. -/
theorem Stack.Move.suffix {t t' : Stack} {base : List Word} (hmove : Stack.Move t t')
    (hbase : base <:+ t.entries) : base <:+ t'.entries ∨ t'.size < base.length := by
  cases hmove with
  | keep => exact Or.inl hbase
  | push hpush =>
      rw [Stack.entries_of_push hpush]
      exact Or.inl (hbase.trans (List.suffix_cons _ _))
  | pop hpop =>
      -- a pop reaches the lower entries only when nothing lies above them
      rw [Stack.entries_of_pop hpop] at hbase
      rcases List.suffix_cons_iff.mp hbase with rfl | hrest
      · exact Or.inr (Nat.lt_succ_self _)
      · exact Or.inl hrest

theorem Stack.Move.capacity {t t' : Stack} (hmove : Stack.Move t t') :
    t'.capacity = t.capacity := by
  cases hmove with
  | keep => rfl
  | push hpush => exact Stack.capacity_push hpush
  | pop hpop => exact Stack.capacity_pop hpop

namespace Machine

variable {σ : Type} {host : Host σ} {p : Program} {d : Instruction} {m m₁ : Machine} {s s₁ : σ}
  {n : Nat} {c c' : Machine × σ}

/-- A run of successful steps, each of them made with at least `n` entries on the stack. -/
inductive RunsAbove (host : Host σ) (p : Program) (n : Nat) (first : Machine × σ) :
    Machine × σ → Prop
  | first : RunsAbove host p n first first
  | step {m : Machine} {s : σ} {c : Machine × σ} (hrun : RunsAbove host p n first (m, s))
      (hdeep : n ≤ m.cpu.stack.size) (hstep : step host p m s = (c, none)) :
      RunsAbove host p n first c

theorem move_of_step (hstep : step host p m s = (c, none)) :
    Stack.Move m.cpu.stack c.1.cpu.stack := by
  obtain ⟨d, m₁, -, hcarry, hleave⟩ := step_eq_none_iff.mp hstep
  rw [hleave, stack_leave, ← stack_enter m d]
  exact move_of_carryOut hcarry

/-- A run that never begins a step below the depth of some lower entries leaves them alone; only its
last step can take the uppermost of them off. -/
theorem RunsAbove.suffix (hrun : RunsAbove host p n c c') {base : List Word}
    (hbase : base <:+ c.1.cpu.stack.entries) (hlength : base.length = n) :
    base <:+ c'.1.cpu.stack.entries ∨ c'.1.cpu.stack.size < n := by
  induction hrun with
  | first => exact Or.inl hbase
  | step hrun hdeep hstep ih =>
      rcases ih with hkept | hshallow
      · rw [← hlength]
        exact (move_of_step hstep).suffix hkept
      · exact absurd hdeep (Nat.not_le.mpr hshallow)

theorem RunsAbove.capacity (hrun : RunsAbove host p n c c') :
    c'.1.cpu.stack.capacity = c.1.cpu.stack.capacity := by
  induction hrun with
  | first => rfl
  | step hrun hdeep hstep ih => exact (move_of_step hstep).capacity.trans ih

/-! ## A call and its return -/

/-- A step that succeeds has fetched what stands at the pointer. -/
theorem fetch_of_step {i : Nat} (hpointer : m.cpu.pointer.toInt = i)
    (hdecode : decode? p.words i = some d) (hstep : step host p m s = (c, none)) :
    fetch p m = .ok d := by
  obtain ⟨e, -, hfetch, -, -⟩ := step_eq_none_iff.mp hstep
  obtain ⟨hposition, hfetched⟩ := decode?_of_fetch hfetch
  have hsame : e.position = i := by omega
  rw [hsame, hdecode] at hfetched
  cases hfetched
  exact hfetch

theorem step_of_perform (hfetch : fetch p m = .ok d) (hop : d.op ≠ .interrupt)
    (hperform : perform d (m.enter d) = .ok () m₁) :
    step host p m s = ((m₁.leave, s), none) := by
  refine step_eq_none_iff.mpr ⟨d, m₁, hfetch, ?_, rfl⟩
  rw [carryOut_of_ne_interrupt hop, hperform]

/-- A call leaves its position on the stack and goes on behind the word that it states. -/
theorem step_call (host : Host σ) (s : σ) (hfetch : fetch p m = .ok d) (hop : d.op = .call)
    {stack : Stack} (hpush : m.cpu.stack.push (Word.ofCount d.position) = .ok stack) :
    ∃ m₁, step host p m s = ((m₁, s), none) ∧ m₁.cpu.stack = stack ∧
      m₁.cpu.pointer = d.first + 1 := by
  have hperform := perform_call (m := m.enter d) hop
  rw [pointer_enter_sub_one m (by rw [hop]; rfl), stack_enter, hpush] at hperform
  exact ⟨_, step_of_perform hfetch (by simp [hop]) hperform, rfl, rfl⟩

/-- A return goes on two words behind the position on top of the stack. -/
theorem step_retn (host : Host σ) (s : σ) (hfetch : fetch p m = .ok d) (hop : d.op = .retn)
    {v : Word} {stack : Stack} (hpop : m.cpu.stack.pop = .ok (v, stack)) :
    ∃ m₁, step host p m s = ((m₁, s), none) ∧ m₁.cpu.stack = stack ∧
      m₁.cpu.pointer = v + 2 := by
  have hperform := perform_retn (m := m.enter d) hop
  rw [stack_enter, hpop] at hperform
  exact ⟨_, step_of_perform hfetch (by simp [hop]) hperform, rfl, Word.add_one_add_one v⟩

/-- A run that begins with a certain stack and never takes anything off it ends with that stack if
it ends as deep as it began. -/
theorem RunsAbove.stack_eq (hrun : RunsAbove host p m.cpu.stack.size (m, s) (m₁, s₁))
    (hsize : m₁.cpu.stack.size = m.cpu.stack.size) : m₁.cpu.stack = m.cpu.stack := by
  rcases hrun.suffix (List.suffix_refl _) rfl with hkept | hshallow
  · exact Stack.eq_of_entries (hkept.eq_of_length hsize.symm).symm hrun.capacity
  · exact absurd hsize (Nat.ne_of_lt hshallow)

/-- Calls and returns are paired.  A call that finds room leaves its position on the stack and goes
on where it says; and a return that a run comes to without ever having been below that position, and
with nothing above it, goes on behind the call and leaves the stack as the call found it.  What
happens in between does not matter. -/
theorem return_after_call (hsmall : p.size < 0x7fffffff) {i : Nat}
    (hpointer : m.cpu.pointer.toInt = i) (hdecode : decode? p.words i = some d)
    (hop : d.op = .call) (hroom : m.cpu.stack.isFull = false) (host : Host σ) (s : σ) :
    (m.cpu.reachedLimit? = none → ∃ m₁, step host p m s = ((m₁, s), none)) ∧
      ∀ m₁ s₁, step host p m s = ((m₁, s₁), none) →
        m₁.cpu.stack.entries = Word.ofCount i :: m.cpu.stack.entries ∧
        m₁.cpu.pointer = d.first + 1 ∧
        ∀ m₂ s₂ r, RunsAbove host p (m.cpu.stack.size + 1) (m₁, s₁) (m₂, s₂) →
          m₂.cpu.stack.size = m.cpu.stack.size + 1 → fetch p m₂ = .ok r → r.op = .retn →
          ∃ m₃, step host p m₂ s₂ = ((m₃, s₂), none) ∧ m₃.cpu.pointer.toInt = i + 2 ∧
            m₃.cpu.stack = m.cpu.stack := by
  obtain rfl := position_of_decode? hdecode
  have hnext : d.next = d.position + 2 := by rw [Instruction.next, Instruction.width, hop]; rfl
  have hend := next_le_size_of_decode? hdecode
  obtain ⟨stack, hpush⟩ := Stack.push_of_not_isFull hroom (Word.ofCount d.position)
  unfold Program.size at hsmall
  constructor
  · intro hlimit
    have hfetch := fetch_of_decode? (Word.eq_ofCount_of_toInt hpointer) (by omega) hdecode
    rw [hlimit] at hfetch
    obtain ⟨m₁, hstep, -, -⟩ := step_call host s hfetch hop hpush
    exact ⟨m₁, hstep⟩
  · intro m₁ s₁ hstep
    have hfetch := fetch_of_step hpointer hdecode hstep
    obtain ⟨m', hstep', rfl, hgoes⟩ := step_call host s hfetch hop hpush
    rw [hstep'] at hstep
    cases hstep
    have hentries := Stack.entries_of_push hpush
    refine ⟨hentries, hgoes, ?_⟩
    intro m₂ s₂ r hrun hsize hreturn hretn
    -- the run between the call and its return begins and ends with the stack of the call
    have hdepth : m₁.cpu.stack.size = m.cpu.stack.size + 1 := by
      rw [Stack.size, hentries]
      rfl
    rw [← hdepth] at hrun hsize
    have hstack := hrun.stack_eq hsize
    obtain ⟨m₃, hlast, hkept, hback⟩ := step_retn host s₂ hreturn hretn
      (by rw [hstack]; exact Stack.pop_push hpush)
    refine ⟨m₃, hlast, ?_, hkept⟩
    rw [hback, ← Word.ofCount_add_two, Word.toInt_ofCount (by omega)]
    rfl

/-- A call whose label is followed by `retn` is over after three steps. -/
theorem return_after_call_of_label :
    ∃ m₁ m₂ m₃ : Machine,
      step ScriptedHost.answer ⟨#[30, 2, 32, 18, 7, 31]⟩ (Machine.new { memorySize := 0 }) {} =
          ((m₁, {}), none) ∧
        step ScriptedHost.answer ⟨#[30, 2, 32, 18, 7, 31]⟩ m₁ {} = ((m₂, {}), none) ∧
        step ScriptedHost.answer ⟨#[30, 2, 32, 18, 7, 31]⟩ m₂ {} = ((m₃, {}), none) ∧
        m₃.cpu.pointer.toInt = 2 ∧ m₃.cpu.stack = Stack.empty 256 := by
  obtain ⟨-, -, hreturns⟩ := (return_after_call (m := Machine.new { memorySize := 0 }) (i := 0)
    (p := ⟨#[30, 2, 32, 18, 7, 31]⟩) (d := { op := .call, position := 0, first := 2 })
    (by decide) (by decide) (by decide) rfl rfl ScriptedHost.answer {}).2
    _ _ rfl
  obtain ⟨m₃, hlast, hback, hkept⟩ :=
    hreturns _ _ _ (.step .first (by decide) rfl) rfl rfl rfl
  exact ⟨_, _, m₃, rfl, rfl, hlast, hback, hkept⟩

end Machine

end WordMachine
