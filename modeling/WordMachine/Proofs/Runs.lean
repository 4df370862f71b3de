import WordMachine.Machine.Run

/-!
# The states of a run

`advance` makes a number of steps and says what has come of them.  Statements about every state of
a run are made with `Reaches` instead: it relates two states of a machine and its host if the first
comes to the second by successful steps, each of them made while the machine is running.
`ReachesIn` also counts the steps; as long as a run goes on, it says the same as `advance`
(`advance_eq_running_iff`).  A run that does not go on has come to a state that is not running or to
a step that traps (`Ends`, `advance_eq_iff_ends`).
-/

namespace WordMachine.Machine

variable {σ : Type} {host : Host σ} {p : Program}

/-- The machine with a program loaded, and with its memory as it was. -/
def loaded (p : Program) (m : Machine) : Machine := { m with cpu := m.cpu.load p }

@[simp] theorem pointer_loaded (p : Program) (m : Machine) : (m.loaded p).cpu.pointer = 0 := rfl

@[simp] theorem entries_loaded (p : Program) (m : Machine) :
    (m.loaded p).cpu.stack.entries = [] := rfl

/-- The states of a machine and its host that a run comes to from a first one. -/
inductive Reaches (host : Host σ) (p : Program) (first : Machine × σ) : Machine × σ → Prop
  | first : Reaches host p first first
  | step {m : Machine} {s : σ} {c : Machine × σ} (hreached : Reaches host p first (m, s))
      (hrunning : m.cpu.isRunning = true) (hstep : step host p m s = (c, none)) :
      Reaches host p first c

/-- A run from a first state comes to an instruction and executes it; the instruction may end the
run or trap. -/
def Executes (host : Host σ) (p : Program) (first : Machine × σ) (d : Instruction) : Prop :=
  ∃ m s, Reaches host p first (m, s) ∧ m.cpu.isRunning = true ∧ fetch p m = .ok d

/-! ## Counted steps -/

/-- The states of a machine and its host that a run comes to from a first one by a given number of
steps. -/
inductive ReachesIn (host : Host σ) (p : Program) (first : Machine × σ) : Nat → Machine × σ → Prop
  | first : ReachesIn host p first 0 first
  | step {k : Nat} {m : Machine} {s : σ} {c : Machine × σ}
      (hreached : ReachesIn host p first k (m, s)) (hrunning : m.cpu.isRunning = true)
      (hstep : step host p m s = (c, none)) : ReachesIn host p first (k + 1) c

theorem reaches_iff_exists_reachesIn {first c : Machine × σ} :
    Reaches host p first c ↔ ∃ k, ReachesIn host p first k c := by
  constructor
  · intro hreaches
    induction hreaches with
    | first => exact ⟨0, .first⟩
    | step _ hrunning hstep ih =>
        obtain ⟨k, hreached⟩ := ih
        exact ⟨k + 1, .step hreached hrunning hstep⟩
  · rintro ⟨k, hreached⟩
    induction hreached with
    | first => exact .first
    | step _ hrunning hstep ih => exact .step ih hrunning hstep

theorem advance_one {m : Machine} {s : σ} (hrunning : m.cpu.isRunning = true) :
    advance host p 1 m s =
      match Machine.step host p m s with
      | (c, none) => (c, if c.1.cpu.isRunning then .running else .halted)
      | (c, some t) => (c, .trapped t) := by
  rw [advance_succ, if_pos hrunning]
  rcases Machine.step host p m s with ⟨c, _ | t⟩ <;> rfl

/-- A run goes on after a number of steps if it comes to a running state by that many. -/
theorem advance_eq_running_iff {n : Nat} {m : Machine} {s : σ} {c : Machine × σ} :
    advance host p n m s = (c, .running) ↔
      ReachesIn host p (m, s) n c ∧ c.1.cpu.isRunning = true := by
  induction n generalizing c with
  | zero =>
      rw [advance_zero]
      constructor
      · intro hadvance
        split at hadvance
        · next hrunning => cases hadvance; exact ⟨.first, hrunning⟩
        · cases hadvance
      · rintro ⟨hreached, hrunning⟩
        cases hreached
        rw [if_pos hrunning]
  | succ n ih =>
      -- the last step is split off, because that is where `ReachesIn` grows
      rw [advance_add]
      constructor
      · intro hadvance
        split at hadvance
        · next m₁ s₁ hrun =>
          obtain ⟨hreached, hrunning⟩ := ih.mp hrun
          rw [advance_one hrunning] at hadvance
          split at hadvance
          · next c₁ hstep =>
            split at hadvance
            · next hrunning₁ => cases hadvance; exact ⟨.step hreached hrunning hstep, hrunning₁⟩
            · cases hadvance
          · cases hadvance
        · next hother => exact absurd hadvance (hother _ _)
      · rintro ⟨hreached, hrunning⟩
        cases hreached with
        | step hbefore hrunning₁ hstep =>
            rw [ih.mpr ⟨hbefore, hrunning₁⟩]
            simp only [advance_one hrunning₁, hstep, if_pos hrunning]

/-! ## Ends -/

variable {n k : Nat} {m : Machine} {s : σ} {c : Machine × σ} {status : Status} {t : Trap}

/-- A run from a first state ends after a number of steps, the step that traps being one of them. -/
inductive Ends (host : Host σ) (p : Program) (first : Machine × σ) :
    Nat → Machine × σ → Status → Prop
  | halted {k : Nat} {c : Machine × σ} (hreached : ReachesIn host p first k c)
      (hrests : c.1.cpu.isRunning = false) : Ends host p first k c .halted
  | trapped {k : Nat} {m : Machine} {s : σ} {c : Machine × σ} {t : Trap}
      (hreached : ReachesIn host p first k (m, s)) (hrunning : m.cpu.isRunning = true)
      (hstep : step host p m s = (c, some t)) : Ends host p first (k + 1) c (.trapped t)

/-- The steps after which a run ends are enough of them. -/
theorem Ends.advance_eq (hends : Ends host p (m, s) k c status) :
    advance host p k m s = (c, status) := by
  cases hends with
  | halted hreached hrests =>
      cases hreached with
      | first => exact advance_of_not_running hrests
      | step hbefore hrunning hstep =>
          rw [advance_add, advance_eq_running_iff.mpr ⟨hbefore, hrunning⟩]
          simp only [advance_one hrunning, hstep, hrests]
          rfl
  | trapped hreached hrunning hstep =>
      rw [advance_add, advance_eq_running_iff.mpr ⟨hreached, hrunning⟩]
      simp only [advance_one hrunning, hstep]

/-- A run that does not go on after a number of steps has ended after that many or fewer. -/
theorem exists_ends_of_advance (hadvance : advance host p n m s = (c, status))
    (hended : status ≠ .running) : ∃ k ≤ n, Ends host p (m, s) k c status := by
  induction n with
  | zero =>
      rw [advance_zero] at hadvance
      split at hadvance
      · cases hadvance
        exact absurd rfl hended
      · next hrests =>
        cases hadvance
        exact ⟨0, Nat.le_refl 0, .halted .first (Bool.eq_false_iff.mpr hrests)⟩
  | succ n ih =>
      rw [advance_add] at hadvance
      split at hadvance
      · next m₁ s₁ hrun =>
        -- the run goes on after `n` steps, and one more step ends it
        obtain ⟨hreached, hrunning⟩ := advance_eq_running_iff.mp hrun
        refine ⟨n + 1, Nat.le_refl _, ?_⟩
        rw [advance_one hrunning] at hadvance
        split at hadvance
        · next hstep =>
          split at hadvance
          · cases hadvance
            exact absurd rfl hended
          · next hrests =>
            cases hadvance
            exact .halted (.step hreached hrunning hstep) (Bool.eq_false_iff.mpr hrests)
        · next hstep =>
          cases hadvance
          exact .trapped hreached hrunning hstep
      · obtain ⟨k, hle, hends⟩ := ih hadvance
        exact ⟨k, Nat.le_succ_of_le hle, hends⟩

/-- What has become of a run that has ended stays the same, however many steps it may make. -/
theorem advance_eq_iff_ends (hended : status ≠ .running) :
    advance host p n m s = (c, status) ↔ ∃ k ≤ n, Ends host p (m, s) k c status := by
  constructor
  · intro hadvance
    exact exists_ends_of_advance hadvance hended
  · rintro ⟨k, hle, hends⟩
    obtain ⟨extra, rfl⟩ := Nat.exists_eq_add_of_le hle
    rw [advance_add, hends.advance_eq]
    cases status with
    | running => exact absurd rfl hended
    | halted | trapped => rfl

/-- A run that is not trapped has come to a state that it reaches. -/
theorem reaches_of_advance (hadvance : advance host p n m s = (c, status))
    (hstatus : ∀ t, status ≠ .trapped t) : Reaches host p (m, s) c := by
  rw [reaches_iff_exists_reachesIn]
  cases status with
  | running => exact ⟨n, (advance_eq_running_iff.mp hadvance).1⟩
  | halted =>
      obtain ⟨k, -, hends⟩ := exists_ends_of_advance hadvance Status.noConfusion
      cases hends with
      | halted hreached _ => exact ⟨k, hreached⟩
  | trapped t => exact absurd rfl (hstatus t)

/-- A run that is trapped has come to a running state whose next step traps. -/
theorem reaches_of_advance_trapped (hadvance : advance host p n m s = (c, .trapped t)) :
    ∃ m₁ s₁, Reaches host p (m, s) (m₁, s₁) ∧ m₁.cpu.isRunning = true ∧
      step host p m₁ s₁ = (c, some t) := by
  obtain ⟨_, -, hends⟩ := exists_ends_of_advance hadvance Status.noConfusion
  cases hends with
  | trapped hreached hrunning hstep =>
      exact ⟨_, _, reaches_iff_exists_reachesIn.mpr ⟨_, hreached⟩, hrunning, hstep⟩

end WordMachine.Machine
