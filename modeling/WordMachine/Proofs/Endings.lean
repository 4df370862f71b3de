import WordMachine.Proofs.StepLimit
import WordMachine.Proofs.Trapping

/-!
# How runs end

A run is over when it comes to a state that is not running, or when a step traps (`Ends`).  What
`run` hands over is taken from the state at that moment:

* the core dump shows the machine as the failing step has left it (`IsDump`), with a pointer that is
  still below the end of the program, and the machine is halted only after that;
* in either case the machine comes to rest (`AtRest`), and a run that is not started anew has
  nothing to do.
-/

namespace WordMachine.Machine

variable {σ : Type} {host : Host σ} {p : Program} {m m' : Machine} {s : σ} {k n : Nat}
  {c : Machine × σ} {t : Trap} {fault : MachineFault} {exit : Exit}

/-! ## What is handed over -/

theorem run_eq_error_iff :
    run host p n m s = (c, some (.error fault)) ↔
      ∃ left, advance host p n (m.start p) s = ((left, c.2), .trapped fault.trap) ∧
        fault.dump = CoreDump.capture left ∧ c.1 = left.halted := by
  unfold run
  rcases advance host p n (m.start p) s with ⟨⟨left, s'⟩, status⟩
  constructor
  · intro hrun
    cases status <;> cases hrun
    exact ⟨left, rfl, rfl, rfl⟩
  · rintro ⟨left', hleft, hdump, hhalted⟩
    cases hleft
    obtain ⟨t, dump⟩ := fault
    obtain ⟨m', s'⟩ := c
    cases hdump
    cases hhalted
    rfl

theorem run_eq_ok_iff :
    run host p n m s = (c, some (.ok exit)) ↔
      advance host p n (m.start p) s = (c, .halted) ∧
        exit = { code := c.1.cpu.registers.r1, steps := c.1.cpu.steps } := by
  unfold run
  rcases advance host p n (m.start p) s with ⟨⟨left, s'⟩, status⟩
  constructor
  · intro hrun
    cases status <;> cases hrun
    exact ⟨rfl, rfl⟩
  · rintro ⟨hhalted, rfl⟩
    cases hhalted
    rfl

/-! ## The program's length -/

/-- No step changes what the processor knows of the program, not even one that traps. -/
theorem programSize_step (host : Host σ) (p : Program) (m : Machine) (s : σ) :
    (step host p m s).1.1.cpu.programSize = m.cpu.programSize := by
  rw [step_eq]
  split
  · rfl
  · split
    · next hcarry => exact (agreeOff_of_carryOut_error hcarry).1.programSize
    · next hcarry => exact (agreeOff_of_carryOut hcarry).programSize

theorem programSize_of_step {trap? : Option Trap} (hstep : step host p m s = (c, trap?)) :
    c.1.cpu.programSize = m.cpu.programSize := by
  rw [← programSize_step host p m s, hstep]

theorem programSize_of_reachesIn (hreached : ReachesIn host p (m, s) k c) :
    c.1.cpu.programSize = m.cpu.programSize := by
  induction hreached with
  | first => rfl
  | step _ _ hstep ih => exact (programSize_of_step hstep).trans ih

/-- A trap finds the pointer below the end of the program, on the word that could not be fetched or
on the last word of the instruction that was entered. -/
theorem isRunning_of_trapped (hsmall : p.size < 0x80000000) (hsize : m.cpu.programSize = p.size)
    (hrunning : m.cpu.isRunning = true) (hstep : step host p m s = (c, some t)) :
    c.1.cpu.isRunning = true := by
  rcases step_eq_some_iff.mp hstep with ⟨-, rfl⟩ | ⟨d, hfetch, hcarry⟩
  · exact hrunning
  · have hpointer : c.1.cpu.pointer = Word.ofCount (d.position + d.op.operandCount) := by
      rw [(carryOut_eq_error hcarry).1, cpu_foundBy]
      rfl
    have hend : d.position + d.op.operandCount < p.size := by
      have hnext := next_le_size_of_decode? (decode?_of_fetch hfetch).2
      rw [← d.add_operandCount_eq_next] at hnext
      unfold Program.size
      omega
    rw [Cpu.isRunning, hpointer, Word.toInt_ofCount (Nat.lt_trans hend hsmall),
      programSize_of_step hstep, hsize, decide_eq_true_eq]
    exact Int.ofNat_lt.mpr hend

/-! ## At rest -/

/-- Nothing is left for a machine to do: whatever program and host it is given, a run that is not
started anew succeeds without a step. -/
structure AtRest (m : Machine) : Prop where
  isRunning : m.cpu.isRunning = false
  advance : ∀ {σ : Type} (host : Host σ) (p : Program) (n : Nat) (s : σ),
    advance host p n m s = ((m, s), .halted)

theorem atRest_iff : AtRest m ↔ m.cpu.isRunning = false :=
  ⟨AtRest.isRunning, fun hrests => ⟨hrests, fun _ _ _ _ => advance_of_not_running hrests⟩⟩

/-! ## The dump -/

/-- A core dump shows a machine. -/
structure IsDump (dump : CoreDump) (m : Machine) : Prop where
  /-- There are nine registers, and each stands at its index. -/
  registers : dump.registers.toList.length = 9 ∧
    ∀ r : Register, dump.registers.toList[r.index]? = some (m.cpu.registers.get r)
  flags : dump.flags = m.cpu.flags
  /-- The top comes first. -/
  stack : dump.stack = m.cpu.stack.entries
  /-- The memory is shown from its first byte on. -/
  memory : dump.memory <+: m.memory.bytes.toList
  steps : dump.steps = m.cpu.steps

theorem isDump_capture (m : Machine) : IsDump (CoreDump.capture m) m where
  registers := by
    refine ⟨rfl, fun r => ?_⟩
    change (Register.all.map m.cpu.registers.get)[r.index]? = _
    rw [List.getElem?_map, r.getElem?_index, Option.map_some]
  flags := rfl
  stack := rfl
  memory := by
    change (m.memory.bytes.extract 0 _).toList <+: _
    rw [Array.toList_extract, List.extract_eq_take_drop, List.drop_zero]
    exact List.take_prefix _ _
  steps := rfl

/-- A machine `m` that has been halted from the state `left`: its pointer stands at the end of the
program, and all else is as it was. -/
structure HaltedFrom (p : Program) (left m : Machine) : Prop where
  cpu : m.cpu = left.cpu.goTo m.cpu.pointer
  memory : m.memory = left.memory
  pointer : m.cpu.pointer.toInt = p.size

theorem haltedFrom_halted (hsmall : p.size < 0x80000000) (hsize : m.cpu.programSize = p.size) :
    HaltedFrom p m m.halted where
  cpu := rfl
  memory := rfl
  pointer := by
    change (Word.clamp m.cpu.programSize).toInt = _
    rw [hsize, Word.clamp_of_lt hsmall, Word.toInt_ofCount hsmall]

/-- What a run hands over.  A fault comes from a step that traps after a number of successful ones.
Its dump shows the machine as that step has left it, not yet halted, and of this state the machine
afterwards differs in the pointer only.  An exit gives the contents of `r1` and the number of steps.
In both cases the machine has come to rest. -/
theorem run_ends (hsmall : p.size < 0x80000000) (host : Host σ) (m : Machine) (s : σ) (n : Nat) :
    (∀ m' s' fault, run host p n m s = ((m', s'), some (.error fault)) →
      ∃ k < n, ∃ m₁ s₁ left, ReachesIn host p (m.start p, s) k (m₁, s₁) ∧
        m₁.cpu.isRunning = true ∧ step host p m₁ s₁ = ((left, s'), some fault.trap) ∧
        IsDump fault.dump left ∧ left.cpu.isRunning = true ∧ HaltedFrom p left m' ∧
        AtRest m') ∧
    ∀ m' s' exit, run host p n m s = ((m', s'), some (.ok exit)) →
      exit.steps ≤ n ∧ ReachesIn host p (m.start p, s) exit.steps (m', s') ∧
        exit.code = m'.cpu.registers.r1 ∧ AtRest m' := by
  have hstart : (m.start p).cpu.programSize = p.size := rfl
  constructor
  · intro m' s' fault hrun
    obtain ⟨left, hadvance, hdump, rfl⟩ := run_eq_error_iff.mp hrun
    obtain ⟨k, hle, hends⟩ := (advance_eq_iff_ends (by simp)).mp hadvance
    cases hends with
    | @trapped k m₁ s₁ _ _ hreached hrunning hstep =>
        have hsize : m₁.cpu.programSize = p.size :=
          (programSize_of_reachesIn hreached).trans hstart
        have hsize' : left.cpu.programSize = p.size := (programSize_of_step hstep).trans hsize
        have hfaulting := isRunning_of_trapped hsmall hsize hrunning hstep
        refine ⟨k, hle, m₁, s₁, left, hreached, hrunning, hstep, hdump ▸ isDump_capture left,
          hfaulting, haltedFrom_halted hsmall hsize', ?_⟩
        exact atRest_iff.mpr (Cpu.isRunning_halt _ (hsize' ▸ hsmall))
  · intro m' s' exit hrun
    obtain ⟨hadvance, rfl⟩ := run_eq_ok_iff.mp hrun
    obtain ⟨k, hle, hends⟩ := (advance_eq_iff_ends (by simp)).mp hadvance
    cases hends with
    | halted hreached hrests =>
        -- the count has been reset when the program was loaded
        have hsteps : m'.cpu.steps = k := by
          rw [(steps_of_reachesIn hreached).1]
          exact Nat.zero_add k
        rw [← hsteps] at hle hreached
        exact ⟨hle, hreached, rfl, atRest_iff.mpr hrests⟩

/-- A program that pushes a word and divides by zero, and a program that halts. -/
theorem run_ends_of_division :
    (∃ m' s' fault, run ScriptedHost.answer ⟨#[1, 1, 3, 28, 1, 34, 0, 0]⟩ 9
        (Machine.new { memorySize := 0 }) {} = ((m', s'), some (.error fault)) ∧
      fault.trap = .divideByZero ∧ fault.dump.registers = { r2 := 3, rip := 7 } ∧
      fault.dump.stack = [3] ∧ fault.dump.steps = 3 ∧ m'.cpu.pointer = 8 ∧ AtRest m') ∧
    ∃ m' s', run ScriptedHost.answer ⟨#[1, 0, 5, 32]⟩ 9 (Machine.new { memorySize := 0 }) {} =
        ((m', s'), some (.ok { code := 5, steps := 2 })) ∧ m'.cpu.pointer = 5 ∧ AtRest m' := by
  constructor
  · have hrun : ∃ m' s' fault, run ScriptedHost.answer ⟨#[1, 1, 3, 28, 1, 34, 0, 0]⟩ 9
        (Machine.new { memorySize := 0 }) {} = ((m', s'), some (.error fault)) ∧
        fault.trap = .divideByZero ∧ fault.dump.registers = { r2 := 3, rip := 7 } ∧
        fault.dump.stack = [3] ∧ fault.dump.steps = 3 ∧ m'.cpu.pointer = 8 :=
      ⟨_, _, _, rfl, rfl, rfl, rfl, rfl, rfl⟩
    obtain ⟨m', s', fault, hrun, htrap, hregisters, hstack, hsteps, hpointer⟩ := hrun
    obtain ⟨k, -, m₁, s₁, left, -, -, -, -, -, -, hrests⟩ :=
      (run_ends (by decide) ScriptedHost.answer _ _ 9).1 m' s' fault hrun
    exact ⟨m', s', fault, hrun, htrap, hregisters, hstack, hsteps, hpointer, hrests⟩
  · have hrun : ∃ m' s', run ScriptedHost.answer ⟨#[1, 0, 5, 32]⟩ 9
        (Machine.new { memorySize := 0 }) {} =
          ((m', s'), some (.ok { code := 5, steps := 2 })) ∧ m'.cpu.pointer = 5 :=
      ⟨_, _, rfl, rfl⟩
    obtain ⟨m', s', hrun, hpointer⟩ := hrun
    obtain ⟨-, -, -, hrests⟩ := (run_ends (by decide) ScriptedHost.answer _ _ 9).2 m' s' _ hrun
    exact ⟨m', s', hrun, hpointer, hrests⟩

end WordMachine.Machine
