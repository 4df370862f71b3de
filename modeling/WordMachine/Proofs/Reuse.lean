import WordMachine.Host.Scripted
import WordMachine.Proofs.Runs
import WordMachine.Proofs.Transfer

/-!
# Machines that have been used

A run loads its program into a machine that may have been through a great deal.  Of all that, the
program gets to see the settings and the sizes of the parts only, and these are the same for ever:
the two machines are of the same make (`Used.sameMake`).  Machines of the same make start alike
(`SameMake.start_eq`), and so they run alike (`run_eq_of_used`).
-/

namespace WordMachine.Machine

variable {σ : Type} {host : Host σ} {p : Program} {d : Instruction} {m m' m'' : Machine} {s : σ}

/-! ## What makes a machine -/

/-- Machines with the same settings and with parts of the same sizes.  The registers, the flags and
the counts, and what is on the stack and in the memory, may be different. -/
structure SameMake (m m' : Machine) : Prop where
  config : m'.cpu.config = m.cpu.config
  capacity : m'.cpu.stack.capacity = m.cpu.stack.capacity
  memorySize : m'.memory.size = m.memory.size
  announced : m'.memory.announced = m.memory.announced

namespace SameMake

theorem refl (m : Machine) : SameMake m m := ⟨rfl, rfl, rfl, rfl⟩

theorem trans (hfirst : SameMake m m') (hsecond : SameMake m' m'') : SameMake m m'' where
  config := hsecond.config.trans hfirst.config
  capacity := hsecond.capacity.trans hfirst.capacity
  memorySize := hsecond.memorySize.trans hfirst.memorySize
  announced := hsecond.announced.trans hfirst.announced

theorem symm (h : SameMake m m') : SameMake m' m :=
  ⟨h.config.symm, h.capacity.symm, h.memorySize.symm, h.announced.symm⟩

theorem of_agreeOff {parts : List Part} (hagree : AgreeOff parts m m') : SameMake m m' :=
  ⟨hagree.config, hagree.capacity, hagree.memorySize, hagree.announced⟩

/-- To start a program leaves no trace of what the machine has been before. -/
theorem start_eq (h : SameMake m m') (p : Program) : m'.start p = m.start p := by
  have hcpu : m'.cpu.load p = m.cpu.load p := by
    simp only [Cpu.load, Cpu.reset, Stack.clear, h.config, h.capacity]
  have hmemory : m'.memory.reset = m.memory.reset := by
    have hsize : m'.memory.bytes.size = m.memory.bytes.size := h.memorySize
    simp only [Memory.reset, hsize, h.announced]
  simp only [start, hcpu, hmemory]

end SameMake

/-! ## What can be done with a machine -/

theorem sameMake_loaded (p : Program) (m : Machine) : SameMake m (m.loaded p) :=
  ⟨rfl, Stack.capacity_clear _, rfl, rfl⟩

theorem sameMake_start (p : Program) (m : Machine) : SameMake m (m.start p) :=
  ⟨rfl, Stack.capacity_clear _, Memory.size_reset _, rfl⟩

theorem sameMake_step (host : Host σ) (p : Program) (m : Machine) (s : σ) :
    SameMake m (step host p m s).1.1 := by
  rw [step_eq]
  split
  · exact .refl m
  · next d _ =>
    have henter : SameMake m (m.enter d) := ⟨rfl, rfl, rfl, rfl⟩
    -- an instruction may trap halfway, but not with a part of another size
    split
    · next hcarry => exact henter.trans (.of_agreeOff (agreeOff_of_carryOut_error hcarry).1)
    · next c hcarry =>
      have hleave : SameMake c.1 c.1.leave := ⟨rfl, rfl, rfl, rfl⟩
      exact (henter.trans (.of_agreeOff (agreeOff_of_carryOut hcarry))).trans hleave

theorem sameMake_advance (host : Host σ) (p : Program) (n : Nat) (m : Machine) (s : σ) :
    SameMake m (advance host p n m s).1.1 := by
  induction n generalizing m s with
  | zero => exact .refl m
  | succ n ih =>
      have hstep := sameMake_step host p m s
      rw [advance_succ]
      split
      · split
        · next m₁ s₁ heq =>
          rw [heq] at hstep
          exact hstep.trans (ih m₁ s₁)
        · next heq =>
          rw [heq] at hstep
          exact hstep
      · exact .refl m

theorem sameMake_settle (m : Machine) (status : Status) : SameMake m (m.settle status).1 := by
  cases status with
  | running | halted => exact .refl m
  | trapped t => exact ⟨rfl, rfl, rfl, rfl⟩

theorem sameMake_run (host : Host σ) (p : Program) (n : Nat) (m : Machine) (s : σ) :
    SameMake m (run host p n m s).1.1 :=
  ((sameMake_start p m).trans (sameMake_advance host p n (m.start p) s)).trans (sameMake_settle _ _)

/-- What can become of a machine.  Each step and each run may have a program and a host of its own,
and may end in a trap. -/
inductive Used (m : Machine) : Machine → Prop
  | new : Used m m
  | reset {m₁ : Machine} (h : Used m m₁) : Used m { m₁ with cpu := m₁.cpu.reset }
  | clear {m₁ : Machine} (h : Used m m₁) : Used m { m₁ with memory := m₁.memory.reset }
  | load {m₁ : Machine} (h : Used m m₁) (p : Program) : Used m (m₁.loaded p)
  | halt {m₁ : Machine} (h : Used m m₁) : Used m m₁.halted
  | step {m₁ : Machine} (h : Used m m₁) {σ : Type} (host : Host σ) (p : Program) (s : σ) :
      Used m (step host p m₁ s).1.1
  | advance {m₁ : Machine} (h : Used m m₁) {σ : Type} (host : Host σ) (p : Program) (n : Nat)
      (s : σ) : Used m (advance host p n m₁ s).1.1
  | run {m₁ : Machine} (h : Used m m₁) {σ : Type} (host : Host σ) (p : Program) (n : Nat) (s : σ) :
      Used m (run host p n m₁ s).1.1

theorem Used.sameMake (hused : Used m m') : SameMake m m' := by
  induction hused with
  | new => exact .refl m
  | reset _ ih => exact ih.trans ⟨rfl, Stack.capacity_clear _, rfl, rfl⟩
  | clear _ ih => exact ih.trans ⟨rfl, rfl, Memory.size_reset _, rfl⟩
  | load _ p ih => exact ih.trans (sameMake_loaded p _)
  | halt _ ih => exact ih.trans ⟨rfl, rfl, rfl, rfl⟩
  | step _ host p s ih => exact ih.trans (sameMake_step host p _ s)
  | advance _ host p n s ih => exact ih.trans (sameMake_advance host p n _ s)
  | run _ host p n s ih => exact ih.trans (sameMake_run host p n _ s)

/-! ## Running them -/

/-- Two machines of the same make, whatever has become of them, run every program alike: both runs
come to an end or neither does, with the same exit or fault, the same machine and the same state of
the host. -/
theorem run_eq_of_used (hmake : SameMake m m') :
    ∀ m₁ m₂, Used m m₁ → Used m' m₂ → ∀ (host : Host σ) (p : Program) (n : Nat) (s : σ),
      run host p n m₂ s = run host p n m₁ s := by
  intro m₁ m₂ hused hused' host p n s
  -- back from the first machine to what it was made as, over to the second and on to what it became
  have hsame : SameMake m₁ m₂ := (hused.sameMake.symm.trans hmake).trans hused'.sameMake
  unfold run
  rw [hsame.start_eq]

/-- What has been left on the stack of a machine is not there for the next program to pop. -/
theorem run_eq_of_used_of_leftovers :
    ∃ m m' : Machine, SameMake m m' ∧ m.cpu.stack.entries = [] ∧ m'.cpu.stack.entries = [5] ∧
      m'.memory.bytes = #[1, 2, 3, 4] ∧
      run ScriptedHost.answer ⟨#[29, 0, 32]⟩ 2 m'.halted {} =
        run ScriptedHost.answer ⟨#[29, 0, 32]⟩ 2 m {} := by
  refine ⟨Machine.new { memorySize := 4, stackCapacity := 2 },
    { cpu :=
        { registers := { r1 := 7 }, flags := { equal := true }
          stack := { entries := [5], free := 1 }, programSize := 9, steps := 3
          config := { memorySize := 4, stackCapacity := 2 } }
      memory := { bytes := #[1, 2, 3, 4] } }, ⟨rfl, rfl, rfl, rfl⟩, rfl, rfl, rfl, ?_⟩
  exact run_eq_of_used ⟨rfl, rfl, rfl, rfl⟩ _ _ .new (.halt .new) _ _ _ _

end WordMachine.Machine
