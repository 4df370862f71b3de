import WordMachine.Host.Scripted
import WordMachine.Proofs.Runs
import WordMachine.Proofs.Settings

/-!
# The step limit

A step limit is looked at when an instruction is fetched, after the pointer has been found to stand
on a word of the program and before that word is decoded.  So a limit makes itself felt in one kind
of state only: as many instructions as it allows have been executed, and the next one would be
fetched from inside the program.

* `step_limited`: what a limit makes of one step.
* `reachesIn_bounded_iff` and `advance_bounded`: up to the limit, a run goes through the same
  states.
* `limited_run`: how a run ends that has a limit.
-/

namespace WordMachine.Machine

variable {σ : Type} {host : Host σ} {p : Program} {m : Machine} {s : σ} {limit k n : Nat}
  {c : Machine × σ}

/-- The machine with another step limit, or with none. -/
def limited (limit : Option Nat) (m : Machine) : Machine :=
  m.mapConfig fun config => { config with maxSteps := limit }

/-- A machine and its host, the machine having a step limit. -/
def bounded (limit : Nat) (c : Machine × σ) : Machine × σ := (c.1.limited (some limit), c.2)

/-- The pointer stands on a word of a program. -/
def Inside (p : Program) (m : Machine) : Prop :=
  0 ≤ m.cpu.pointer.toInt ∧ m.cpu.pointer.toInt < p.size

instance (p : Program) (m : Machine) : Decidable (Inside p m) :=
  inferInstanceAs (Decidable (_ ∧ _))

/-- The machine before the first step of a program, with no step limit. -/
def unlimited (p : Program) (m : Machine) : Machine := (m.loaded p).limited none

/-! ## One step -/

@[simp] theorem pointer_limited (m : Machine) (limit : Option Nat) :
    (m.limited limit).cpu.pointer = m.cpu.pointer := rfl

@[simp] theorem isRunning_limited (m : Machine) (limit : Option Nat) :
    (m.limited limit).cpu.isRunning = m.cpu.isRunning := rfl

theorem reachedLimit?_of_free (hfree : m.cpu.config.maxSteps = none) :
    m.cpu.reachedLimit? = none := by
  rw [Cpu.reachedLimit?, hfree]
  rfl

theorem reachedLimit?_limited (m : Machine) (limit : Nat) :
    (m.limited (some limit)).cpu.reachedLimit? =
      if limit ≤ m.cpu.steps then some limit else none := by
  change Option.filter (fun limit => decide (limit ≤ m.cpu.steps)) (some limit) = _
  simp only [Option.filter_some, decide_eq_true_eq]

theorem exists_index_of_inside (hinside : Inside p m) :
    ∃ i w, Word.toIndex? m.cpu.pointer = some i ∧ p.words[i]? = some w := by
  have hlt : m.cpu.pointer.toInt.toNat < p.words.size := by
    have := hinside.2
    have := hinside.1
    unfold Program.size at *
    omega
  exact ⟨_, _, Word.toIndex?_of_nonneg hinside.1, Array.getElem?_eq_getElem hlt⟩

/-- That the pointer is outside the program is found out before the limit is looked at. -/
theorem fetch_of_not_inside (houtside : ¬ Inside p m) :
    fetch p m = .error (.outsideProgram m.cpu.pointer) := by
  unfold fetch
  split
  · rfl
  · next i hindex =>
    have hnone : p.words[i]? = none := by
      refine Array.getElem?_eq_none (Nat.le_of_not_lt fun hlt => houtside ?_)
      have hpointer := Word.toIndex?_eq_some.mp hindex
      unfold Inside Program.size
      omega
    rw [hnone]

/-- Whether a whole instruction stands at the pointer is found out after that. -/
theorem fetch_of_reachedLimit? (hinside : Inside p m)
    (hreached : m.cpu.reachedLimit? = some limit) :
    fetch p m = .error (.stepLimit limit) := by
  obtain ⟨i, w, hindex, hword⟩ := exists_index_of_inside hinside
  simp only [fetch, hindex, hword, hreached]

theorem reachedLimit?_of_fetch (hfetch : fetch p m = .error (.stepLimit limit)) :
    m.cpu.reachedLimit? = some limit := by
  unfold fetch at hfetch
  split at hfetch
  · cases hfetch
  · split at hfetch
    · cases hfetch
    · next hreached =>
      cases hfetch
      exact hreached
    · split at hfetch
      · cases hfetch
      · unfold undecodable at hfetch
        split at hfetch <;> cases hfetch

theorem fetch_limited (hfree : m.cpu.config.maxSteps = none) (limit : Nat) :
    fetch p (m.limited (some limit)) =
      if limit ≤ m.cpu.steps ∧ Inside p m then .error (.stepLimit limit) else fetch p m := by
  by_cases hinside : Inside p m
  · by_cases hle : limit ≤ m.cpu.steps
    · rw [if_pos ⟨hle, hinside⟩]
      exact fetch_of_reachedLimit? hinside (by rw [reachedLimit?_limited, if_pos hle])
    · rw [if_neg fun h => hle h.1]
      unfold fetch
      rw [reachedLimit?_limited, if_neg hle, reachedLimit?_of_free hfree, pointer_limited]
  · rw [if_neg fun h => hinside h.2, fetch_of_not_inside hinside]
    exact fetch_of_not_inside hinside

theorem enter_limited (m : Machine) (d : Instruction) (limit : Option Nat) :
    (m.limited limit).enter d = (m.enter d).limited limit := rfl

theorem carryOut_limited (host : Host σ) (d : Instruction) (limit : Nat) (m : Machine) (s : σ) :
    carryOut host d (m.limited (some limit)) s =
      match carryOut host d m s with
      | .ok () c => .ok () (bounded limit c)
      | .error t c => .error t (bounded limit c) :=
  carryOut_mapConfig ..

/-- A limit stops a step that would be made at the limit from inside the program, and it makes no
difference to any other step. -/
theorem step_limited (hfree : m.cpu.config.maxSteps = none) (limit : Nat) (s : σ) :
    step host p (m.limited (some limit)) s =
      if limit ≤ m.cpu.steps ∧ Inside p m then
        (bounded limit (m, s), some (.stepLimit limit))
      else (bounded limit (step host p m s).1, (step host p m s).2) := by
  rw [step_eq, step_eq, fetch_limited hfree]
  by_cases hstops : limit ≤ m.cpu.steps ∧ Inside p m
  · rw [if_pos hstops, if_pos hstops]
    rfl
  · rw [if_neg hstops, if_neg hstops]
    cases fetch p m with
    | error t => rfl
    | ok d =>
        -- the count goes up before the instruction is carried out, and nothing looks at it then
        have hcarry := carryOut_limited host d limit (m.enter d) s
        rw [← enter_limited] at hcarry
        simp only [hcarry]
        cases carryOut host d (m.enter d) s <;> rfl

theorem step_limited_of_lt (hfree : m.cpu.config.maxSteps = none) (hlt : m.cpu.steps < limit)
    (s : σ) :
    step host p (m.limited (some limit)) s =
      (bounded limit (step host p m s).1, (step host p m s).2) := by
  rw [step_limited hfree, if_neg fun h => Nat.not_le_of_lt hlt h.1]

/-- No step is made at the limit. -/
theorem steps_lt_of_step (hfree : m.cpu.config.maxSteps = none)
    (hstep : step host p (m.limited (some limit)) s = (c, none)) : m.cpu.steps < limit := by
  refine Nat.lt_of_not_le fun hle => ?_
  by_cases hinside : Inside p m
  · rw [step_limited hfree, if_pos ⟨hle, hinside⟩] at hstep
    cases hstep
  · obtain ⟨d, m₁, hfetch, -⟩ := step_eq_none_iff.mp hstep
    rw [fetch_limited hfree, if_neg fun h => hinside h.2, fetch_of_not_inside hinside] at hfetch
    cases hfetch

/-- Without a limit, no step is trapped for having reached one. -/
theorem step_ne_stepLimit (hfree : m.cpu.config.maxSteps = none) :
    step host p m s ≠ (c, some (.stepLimit limit)) := by
  intro hstep
  -- the trap is one of fetching, so it cannot be the instruction that raises it
  rcases step_eq_some_iff.mp hstep with ⟨hfetch, -⟩ | ⟨d, -, hcarry⟩
  · have hreached := reachedLimit?_of_fetch hfetch
    rw [reachedLimit?_of_free hfree] at hreached
    cases hreached
  · cases (agreeOff_of_carryOut_error hcarry).2

/-- A successful step is counted, and it leaves the settings alone. -/
theorem steps_of_step (hstep : step host p m s = (c, none)) :
    c.1.cpu.steps = m.cpu.steps + 1 ∧ c.1.cpu.config = m.cpu.config := by
  obtain ⟨d, m₁, -, hcarry, hleave⟩ := step_eq_none_iff.mp hstep
  have hagree := agreeOff_of_carryOut hcarry
  rw [hleave]
  exact ⟨hagree.steps, hagree.config⟩

/-! ## Up to the limit -/

theorem steps_of_reachesIn (hreached : ReachesIn host p (m, s) k c) :
    c.1.cpu.steps = m.cpu.steps + k ∧ c.1.cpu.config = m.cpu.config := by
  induction hreached with
  | first => exact ⟨rfl, rfl⟩
  | step _ _ hstep ih =>
      obtain ⟨hsteps, hconfig⟩ := steps_of_step hstep
      exact ⟨by rw [hsteps, ih.1, Nat.add_assoc], hconfig.trans ih.2⟩

/-- With a limit, a run comes to the same states by the same steps, up to the limit. -/
theorem reachesIn_bounded_iff (hfree : m.cpu.config.maxSteps = none)
    (hstart : m.cpu.steps ≤ limit) :
    ReachesIn host p (bounded limit (m, s)) k c ↔
      m.cpu.steps + k ≤ limit ∧ ∃ c', ReachesIn host p (m, s) k c' ∧ c = bounded limit c' := by
  constructor
  · intro hreached
    induction hreached with
    | first => exact ⟨hstart, _, .first, rfl⟩
    | step _ hrunning hstep ih =>
        -- the state before the step is one of the unlimited run, and its count tells how far it is
        obtain ⟨-, ⟨m₁, s₁⟩, hbefore, heq⟩ := ih
        cases heq
        obtain ⟨hsteps, hconfig⟩ := steps_of_reachesIn hbefore
        have hfree₁ : m₁.cpu.config.maxSteps = none := by rw [hconfig, hfree]
        have hlt := steps_lt_of_step hfree₁ hstep
        rw [step_limited_of_lt hfree₁ hlt] at hstep
        obtain ⟨hbounded, hnone⟩ := Prod.mk.inj hstep
        simp only at hsteps
        exact ⟨by omega, _, .step hbefore hrunning (Prod.ext rfl hnone), hbounded.symm⟩
  · rintro ⟨hle, c', hreached, rfl⟩
    induction hreached with
    | first => exact .first
    | @step k m₁ s₁ _ hbefore hrunning hstep ih =>
        obtain ⟨hsteps, hconfig⟩ := steps_of_reachesIn hbefore
        simp only at hsteps
        have hfree₁ : m₁.cpu.config.maxSteps = none := by rw [hconfig, hfree]
        have hlt : m₁.cpu.steps < limit := by omega
        refine .step (ih (by omega)) hrunning ?_
        rw [step_limited_of_lt hfree₁ hlt, hstep]

/-- With a limit, the steps up to it come to the same. -/
theorem advance_bounded (hfree : m.cpu.config.maxSteps = none) (hle : m.cpu.steps + n ≤ limit) :
    advance host p n (m.limited (some limit)) s =
      (bounded limit (advance host p n m s).1, (advance host p n m s).2) := by
  induction n generalizing m s with
  | zero => rfl
  | succ n ih =>
      rw [advance_succ, advance_succ]
      by_cases hrunning : m.cpu.isRunning = true
      · rw [isRunning_limited, if_pos hrunning, if_pos hrunning,
          step_limited_of_lt hfree (by omega)]
        cases hstep : step host p m s with
        | mk c trap? =>
            cases trap? with
            | some t => rfl
            | none =>
                obtain ⟨hsteps, hconfig⟩ := steps_of_step hstep
                exact ih (m := c.1) (by rw [hconfig, hfree]) (by omega)
      · rw [isRunning_limited, if_neg hrunning, if_neg hrunning]
        rfl

/-! ## To the end -/

/-- A run without a limit ends in no trap of the limit. -/
theorem advance_ne_stepLimit (hfree : m.cpu.config.maxSteps = none) :
    advance host p n m s ≠ (c, .trapped (.stepLimit limit)) := by
  intro hadvance
  obtain ⟨m₁, s₁, hreaches, -, hstep⟩ := reaches_of_advance_trapped hadvance
  obtain ⟨k, hreached⟩ := reaches_iff_exists_reachesIn.mp hreaches
  exact step_ne_stepLimit (by rw [(steps_of_reachesIn hreached).2, hfree]) hstep

/-- A run that would execute one more instruction than its limit is trapped instead. -/
theorem advance_of_reachesIn_inside (hfree : m.cpu.config.maxSteps = none)
    (hlimit : m.cpu.steps + n = limit) (hreached : ReachesIn host p (m, s) n c)
    (hrunning : c.1.cpu.isRunning = true) (hinside : Inside p c.1) :
    advance host p (n + 1) (m.limited (some limit)) s =
      (bounded limit c, .trapped (.stepLimit limit)) := by
  obtain ⟨hsteps, hconfig⟩ := steps_of_reachesIn hreached
  obtain ⟨m₁, s₁⟩ := c
  have hstops : limit ≤ m₁.cpu.steps ∧ Inside p m₁ := ⟨by simp only at hsteps; omega, hinside⟩
  rw [advance_add, advance_bounded hfree (Nat.le_of_eq hlimit),
    advance_eq_running_iff.mpr ⟨hreached, hrunning⟩]
  simp only [bounded, advance_one ((isRunning_limited m₁ _).trans hrunning),
    step_limited (by rw [hconfig, hfree] : m₁.cpu.config.maxSteps = none), if_pos hstops]

/-- Any other run ends in the same way with the limit and without. -/
theorem advance_of_not_reachesIn (hfree : m.cpu.config.maxSteps = none)
    (hlimit : m.cpu.steps + n = limit)
    (hother : ¬ ∃ c, ReachesIn host p (m, s) n c ∧ c.1.cpu.isRunning = true ∧ Inside p c.1) :
    ∃ c status, status ≠ .running ∧ advance host p (n + 1) m s = (c, status) ∧
      advance host p (n + 1) (m.limited (some limit)) s = (bounded limit c, status) := by
  rw [advance_add, advance_add, advance_bounded hfree (Nat.le_of_eq hlimit)]
  cases hrun : advance host p n m s with
  | mk c status =>
      cases status with
      | halted => exact ⟨c, .halted, by simp, rfl, rfl⟩
      | trapped t => exact ⟨c, .trapped t, by simp, rfl, rfl⟩
      | running =>
          -- one more step is made, and it finds the pointer outside the program
          obtain ⟨hreached, hrunning⟩ := advance_eq_running_iff.mp hrun
          obtain ⟨m₁, s₁⟩ := c
          have houtside : ¬ Inside p m₁ := fun hinside => hother ⟨_, hreached, hrunning, hinside⟩
          have hfree₁ : m₁.cpu.config.maxSteps = none := by
            rw [(steps_of_reachesIn hreached).2, hfree]
          have hstops : ¬(limit ≤ m₁.cpu.steps ∧ Inside p m₁) := fun h => houtside h.2
          have hstep : step host p m₁ s₁ = ((m₁, s₁), some (.outsideProgram m₁.cpu.pointer)) := by
            rw [step_eq, fetch_of_not_inside houtside]
          refine ⟨(m₁, s₁), .trapped (.outsideProgram m₁.cpu.pointer), by simp, ?_, ?_⟩
          · simp only [advance_one hrunning, hstep]
          · simp only [bounded, advance_one ((isRunning_limited m₁ _).trans hrunning),
              step_limited hfree₁, if_neg hstops, hstep]

/-- What a step limit makes of a run that starts with a program being loaded.  It goes through the
same states up to the limit, and the number of a state is its count of steps.  At most one step more
is made, and it ends the run if nothing has ended it before.  The trap of the limit stands for a
state of the unlimited run that is about to go on inside the program; without such a state, the
unlimited run ends in the same way. -/
theorem limited_run (host : Host σ) (p : Program) (m : Machine) (s : σ) (limit : Nat) :
    (∀ k c, ReachesIn host p (unlimited p m, s) k c → c.1.cpu.steps = k) ∧
    (∀ k c, ReachesIn host p (bounded limit (unlimited p m, s)) k c ↔
      k ≤ limit ∧ ∃ c', ReachesIn host p (unlimited p m, s) k c' ∧ c = bounded limit c') ∧
    ∃ c status,
      advance host p (limit + 1) ((unlimited p m).limited (some limit)) s =
        (bounded limit c, status) ∧
      status ≠ .running ∧
      (status = .trapped (.stepLimit limit) ↔
        ∃ c', ReachesIn host p (unlimited p m, s) limit c' ∧ c'.1.cpu.isRunning = true ∧
          Inside p c'.1) ∧
      (status = .trapped (.stepLimit limit) → ReachesIn host p (unlimited p m, s) limit c) ∧
      (status ≠ .trapped (.stepLimit limit) →
        advance host p (limit + 1) (unlimited p m) s = (c, status)) := by
  have hfree : (unlimited p m).cpu.config.maxSteps = none := rfl
  have hzero : (unlimited p m).cpu.steps = 0 := rfl
  have hlimit : (unlimited p m).cpu.steps + limit = limit := by rw [hzero, Nat.zero_add]
  refine ⟨fun k c hreached => ?_, fun k c => ?_, ?_⟩
  · rw [(steps_of_reachesIn hreached).1, hzero, Nat.zero_add]
  · rw [reachesIn_bounded_iff hfree (hzero ▸ Nat.zero_le limit), hzero, Nat.zero_add]
  by_cases hstops : ∃ c, ReachesIn host p (unlimited p m, s) limit c ∧
      c.1.cpu.isRunning = true ∧ Inside p c.1
  · have hiff := iff_of_true (rfl : Status.trapped (.stepLimit limit) = _) hstops
    obtain ⟨c, hreached, hrunning, hinside⟩ := hstops
    refine ⟨c, _, advance_of_reachesIn_inside hfree hlimit hreached hrunning hinside, ?_, hiff,
      fun _ => hreached, fun hne => absurd rfl hne⟩
    exact Status.noConfusion
  · obtain ⟨c, status, hended, hrun, hbounded⟩ := advance_of_not_reachesIn hfree hlimit hstops
    have hne : status ≠ .trapped (.stepLimit limit) := by
      rintro rfl
      exact advance_ne_stepLimit hfree hrun
    exact ⟨c, status, hbounded, hended, iff_of_false hne hstops, fun h => absurd h hne,
      fun _ => hrun⟩

/-- A program may halt with the last step that its limit allows. -/
example : (advance ScriptedHost.answer ⟨#[32]⟩ 2
    ((unlimited ⟨#[32]⟩ (Machine.new { memorySize := 0 })).limited (some 1)) {}).2 = .halted := by
  decide

/-- At the limit, it is not found out that the next word is no instruction. -/
example : (advance ScriptedHost.answer ⟨#[99]⟩ 1
    ((unlimited ⟨#[99]⟩ (Machine.new { memorySize := 0 })).limited (some 0)) {}).2 =
      .trapped (.stepLimit 0) := by
  decide

end WordMachine.Machine
