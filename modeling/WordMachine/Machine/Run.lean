import WordMachine.Machine.Dump
import WordMachine.Machine.Step

/-!
# Runs

A run steps a machine for as long as it is running and no step traps.  Whether that ever ends is up
to the program, so a run is given a number of steps that it may make: `advance` says whether it has
halted, has been trapped or is still running after them.  With a step limit in the settings, one
more step than the limit is always enough.

`start` and `settle` stand around the steps: the program is loaded into a machine with all bytes
zero, and at the end there is an exit or a fault with the core dump of the machine it happened in.
-/

namespace WordMachine

/-- How a program ended that was not trapped. -/
structure Exit where
  /-- The contents of `r1` at the end. -/
  code : Word
  /-- The number of instructions executed; as in the machine, it stays below `2 ^ 64`. -/
  steps : Nat
  deriving DecidableEq, Repr

/-- How a program ended that was trapped. -/
structure MachineFault where
  trap : Trap
  /-- The machine at the moment of the trap. -/
  dump : CoreDump
  deriving DecidableEq, Repr

namespace Machine

/-- How far a run has come. -/
inductive Status
  | running
  | halted
  | trapped (t : Trap)
  deriving DecidableEq, Repr, Inhabited

/-- Makes up to `n` steps. -/
def advance (host : Host σ) (p : Program) : Nat → Machine → σ → (Machine × σ) × Status
  | 0, m, s => ((m, s), if m.cpu.isRunning then .running else .halted)
  | n + 1, m, s =>
    if m.cpu.isRunning then
      match step host p m s with
      | ((m, s), none) => advance host p n m s
      | ((m, s), some t) => ((m, s), .trapped t)
    else ((m, s), .halted)

/-- The machine before the first step of a program. -/
def start (p : Program) (m : Machine) : Machine :=
  { cpu := m.cpu.load p, memory := m.memory.reset }

/-- The machine with its pointer at the end of its program. -/
def halted (m : Machine) : Machine := { m with cpu := m.cpu.halt }

/-- The result of a run with the given status, and the machine after it; after a trap the machine
is halted.  A run that is still going on has no result. -/
def settle (m : Machine) : Status → Machine × Option (Except MachineFault Exit)
  | .running => (m, none)
  | .halted => (m, some (.ok { code := m.cpu.registers.r1, steps := m.cpu.steps }))
  | .trapped trap => (m.halted, some (.error { trap, dump := CoreDump.capture m }))

/-- Runs a program from its first word, with up to `n` steps. -/
def run (host : Host σ) (p : Program) (n : Nat) (m : Machine) (s : σ) :
    (Machine × σ) × Option (Except MachineFault Exit) :=
  let ((m, s), status) := advance host p n (m.start p) s
  let (m, result) := m.settle status
  ((m, s), result)

@[simp] theorem advance_zero (host : Host σ) (p : Program) (m : Machine) (s : σ) :
    advance host p 0 m s = ((m, s), if m.cpu.isRunning then .running else .halted) := rfl

theorem advance_succ (host : Host σ) (p : Program) (n : Nat) (m : Machine) (s : σ) :
    advance host p (n + 1) m s =
      if m.cpu.isRunning then
        match step host p m s with
        | ((m, s), none) => advance host p n m s
        | ((m, s), some t) => ((m, s), .trapped t)
      else ((m, s), .halted) := rfl

theorem advance_of_not_running {host : Host σ} {p : Program} {n : Nat} {m : Machine} {s : σ}
    (h : m.cpu.isRunning = false) : advance host p n m s = ((m, s), .halted) := by
  cases n <;> simp [advance, h]

/-- A run may be interrupted and taken up again. -/
theorem advance_add (host : Host σ) (p : Program) (n k : Nat) (m : Machine) (s : σ) :
    advance host p (n + k) m s =
      match advance host p n m s with
      | ((m, s), .running) => advance host p k m s
      | result => result := by
  induction n generalizing m s with
  | zero =>
    rw [Nat.zero_add, advance_zero]
    by_cases h : m.cpu.isRunning = true
    · simp [h]
    · simp [advance_of_not_running (Bool.eq_false_iff.2 h), h]
  | succ n ih =>
    rw [Nat.succ_add, advance_succ, advance_succ]
    split
    · split
      · exact ih ..
      · rfl
    · rfl

end Machine

end WordMachine
