import WordMachine.Proofs.Arithmetic
import WordMachine.Proofs.Comparisons
import WordMachine.Proofs.Reuse
import WordMachine.Proofs.StepLimit
import WordMachine.Proofs.Trapping

/-!
# What a machine never exceeds

A machine is made with a stack of a certain capacity, a memory of a certain size and perhaps a limit
to its steps.  Whatever is done with it afterwards, in whatever order and with whatever programs, it
stays within these bounds, and of the three flags of a comparison at most one is set
(`WithinBounds`).

The sizes are those of the machine's make.  The count of steps and the flags change, and what holds
of them (`Moderate`) has to be carried through every kind of use, the steps that trap included
(`moderate_step`).

The capacity is used to the full: a word is refused by the stack exactly if there are as many
entries as the settings say (`step_eq_overflow`), and none can be taken off exactly if there is no
entry (`step_eq_underflow`).
-/

namespace WordMachine

theorem Stack.push_of_size_eq_capacity {t : Stack} (hfull : t.size = t.capacity) (v : Word) :
    t.push v = .error (.overflow t.capacity) := by
  have hfree : t.free = 0 := by
    rw [capacity] at hfull
    omega
  rw [push, hfree]

theorem Stack.exists_push_of_size_ne_capacity {t : Stack} (hroom : t.size ≠ t.capacity)
    (v : Word) : ∃ t', t.push v = .ok t' := by
  refine push_of_not_isFull (Bool.eq_false_iff.mpr fun hfull => hroom ?_) v
  rw [capacity, eq_of_beq hfull, Nat.add_zero]

theorem Stack.pop_of_size_eq_zero {t : Stack} (hempty : t.size = 0) :
    t.pop = .error .underflow := by
  have hentries : t.entries = [] := List.length_eq_zero_iff.mp hempty
  rw [pop, hentries]

theorem Stack.exists_pop_of_size_ne_zero {t : Stack} (hsize : t.size ≠ 0) :
    ∃ v t', t.pop = .ok (v, t') := by
  obtain ⟨v, rest, hentries⟩ := List.exists_cons_of_length_pos (Nat.pos_of_ne_zero hsize)
  exact ⟨v, _, by rw [pop, hentries]⟩

/-- An arithmetic operation sets no flag of a comparison, and the others leave them alone. -/
theorem BinaryOp.orderCount_flags_le (op : BinaryOp) (old : Flags) (c v : Word) :
    (op.flags old c v).orderCount ≤ old.orderCount := by
  cases op with
  | add | sub | mul | div => exact Nat.zero_le _
  | _ => exact Nat.le_refl _

namespace Machine

variable {σ : Type} {host : Host σ} {p : Program} {d : Instruction} {m m' : Machine} {s s' : σ}
  {op : BinaryOp} {v : Word} {config : Config}

/-! ## Flags -/

theorem flags_of_combine (hcombine : combine op d v m = .ok () m') :
    ∃ c, m'.cpu.flags = op.flags m.cpu.flags c v := by
  obtain ⟨c, m₁, hregister, hrest⟩ := bind_eq_ok_iff.mp hcombine
  obtain rfl := register_eq_ok hregister
  obtain ⟨_, m₂, hflags, hassign⟩ := bind_eq_ok_iff.mp hrest
  cases hflags
  refine ⟨c, ?_⟩
  -- the registers are written afterwards
  split at hassign
  · split at hassign
    · cases hassign
    · obtain ⟨_, m₃, hquotient, hremainder⟩ := bind_eq_ok_iff.mp hassign
      cases hremainder
      exact (agreeOff_of_assign hquotient).flags (by decide)
  · exact (agreeOff_of_assign hassign).flags (by decide)

theorem orderCount_of_binary {mode : Addressing} (hop : d.op = .binary op mode)
    (hcarry : carryOut host d m s = .ok () (m', s')) :
    m'.cpu.flags.orderCount ≤ m.cpu.flags.orderCount := by
  have hperform := carryOut_of_perform (by simp [hop]) hcarry
  simp only [perform, hop] at hperform
  obtain ⟨v, m₁, hoperand, hcombine⟩ := bind_eq_ok_iff.mp hperform
  obtain rfl := (Inspects.operand mode d).ok hoperand
  obtain ⟨c, hflags⟩ := flags_of_combine hcombine
  rw [hflags]
  exact op.orderCount_flags_le _ c v

/-- An instruction that succeeds leaves at most one flag of a comparison set. -/
theorem orderCount_of_carryOut (horder : m.cpu.flags.orderCount ≤ 1)
    (hcarry : carryOut host d m s = .ok () (m', s')) : m'.cpu.flags.orderCount ≤ 1 := by
  by_cases hop : d.op.setsOrder = false
  · rw [(sameOrder_of_carryOut hop hcarry).orderCount_eq]
    exact horder
  · cases hcase : d.op with
    | binary op mode => exact (orderCount_of_binary hcase hcarry).trans horder
    | compare mode =>
        obtain ⟨x, y, -, hflags⟩ := flags_of_compare hcase hcarry
        rw [hflags, Flags.orderCount_compare]
    | _ => exact absurd (by rw [hcase]; rfl) hop

/-- So does one that traps. -/
theorem orderCount_of_carryOut_error {t : Trap} {c : Machine × σ}
    (horder : m.cpu.flags.orderCount ≤ 1) (hcarry : carryOut host d m s = .error t c) :
    c.1.cpu.flags.orderCount ≤ 1 := by
  rw [(carryOut_eq_error hcarry).1, cpu_foundBy]
  split
  · exact Nat.zero_le 1
  · exact horder

/-! ## Flags and steps -/

/-- A machine with at most one flag of a comparison set, and with no more steps than its limit
allows. -/
structure Moderate (m : Machine) : Prop where
  order : m.cpu.flags.orderCount ≤ 1
  steps : ∀ limit, m.cpu.config.maxSteps = some limit → m.cpu.steps ≤ limit

namespace Moderate

theorem of_eq (hm : Moderate m) (hflags : m'.cpu.flags = m.cpu.flags)
    (hsteps : m'.cpu.steps = m.cpu.steps) (hconfig : m'.cpu.config = m.cpu.config) :
    Moderate m' := by
  refine ⟨hflags ▸ hm.order, ?_⟩
  rw [hsteps, hconfig]
  exact hm.steps

/-- A processor at rest has no flag set and no step made. -/
theorem of_rest (hflags : m.cpu.flags = {}) (hsteps : m.cpu.steps = 0) : Moderate m := by
  refine ⟨?_, fun limit _ => ?_⟩
  · rw [hflags]
    exact Nat.zero_le 1
  · rw [hsteps]
    exact Nat.zero_le limit

end Moderate

/-- Nothing is fetched at the limit. -/
theorem steps_lt_of_fetch (hfetch : fetch p m = .ok d) {limit : Nat}
    (hlimit : m.cpu.config.maxSteps = some limit) : m.cpu.steps < limit := by
  refine Nat.lt_of_not_le fun hle => ?_
  have hreached : m.cpu.reachedLimit? = some limit := by
    rw [Cpu.reachedLimit?, hlimit]
    exact Option.filter_some_pos (decide_eq_true hle)
  by_cases hinside : Inside p m
  · rw [fetch_of_reachedLimit? hinside hreached] at hfetch
    cases hfetch
  · rw [fetch_of_not_inside hinside] at hfetch
    cases hfetch

theorem moderate_step (host : Host σ) (p : Program) (s : σ) (hm : Moderate m) :
    Moderate (step host p m s).1.1 := by
  rw [step_eq]
  split
  · exact hm
  · next d hfetch =>
    -- the step is counted when the instruction is entered, and whether it traps makes no difference
    have hcount : ∀ m' : Machine, m'.cpu.steps = (m.enter d).cpu.steps →
        m'.cpu.config = (m.enter d).cpu.config →
        ∀ limit, m'.cpu.config.maxSteps = some limit → m'.cpu.steps ≤ limit := by
      intro m' hsteps hconfig limit hlimit
      rw [hconfig] at hlimit
      rw [hsteps]
      exact steps_lt_of_fetch hfetch hlimit
    split
    · next t c hcarry =>
      have hagree := (agreeOff_of_carryOut_error hcarry).1
      have horder := orderCount_of_carryOut_error (m := m.enter d) hm.order hcarry
      exact ⟨horder, hcount _ hagree.steps hagree.config⟩
    · next c hcarry =>
      have hagree := agreeOff_of_carryOut hcarry
      have horder := orderCount_of_carryOut (m := m.enter d) hm.order hcarry
      exact ⟨horder, hcount _ hagree.steps hagree.config⟩

theorem moderate_advance (host : Host σ) (p : Program) (n : Nat) (s : σ) (hm : Moderate m) :
    Moderate (advance host p n m s).1.1 := by
  induction n generalizing m s with
  | zero => exact hm
  | succ n ih =>
      have hstep := moderate_step host p s hm
      rw [advance_succ]
      split
      · split
        · next heq =>
          rw [heq] at hstep
          exact ih _ hstep
        · next heq =>
          rw [heq] at hstep
          exact hstep
      · exact hm

theorem moderate_settle (status : Status) (hm : Moderate m) : Moderate (m.settle status).1 := by
  cases status with
  | running | halted => exact hm
  | trapped t => exact hm.of_eq rfl rfl rfl

/-- Whatever is done with a machine, its flags and its steps stay within their bounds. -/
theorem Used.moderate (hused : Used m m') (hm : Moderate m) : Moderate m' := by
  induction hused with
  | new => exact hm
  | reset _ ih => exact .of_rest rfl rfl
  | clear _ ih => exact ih.of_eq rfl rfl rfl
  | load _ p ih => exact .of_rest rfl rfl
  | halt _ ih => exact ih.of_eq rfl rfl rfl
  | step _ host p s ih => exact moderate_step host p s ih
  | advance _ host p n s ih => exact moderate_advance host p n s ih
  | run _ host p n s ih =>
      exact moderate_settle _ (moderate_advance host p n s (.of_rest rfl rfl))

/-! ## Bounds -/

/-- A machine that keeps to its settings. -/
structure WithinBounds (config : Config) (m : Machine) : Prop where
  settings : m.cpu.config = config
  capacity : m.cpu.stack.capacity = config.stackCapacity
  depth : m.cpu.stack.size ≤ config.stackCapacity
  memorySize : m.memory.size = config.memorySize
  order : m.cpu.flags.orderCount ≤ 1
  steps : ∀ limit, config.maxSteps = some limit → m.cpu.steps ≤ limit

theorem withinBounds_of_used (hused : Used (Machine.new config) m) : WithinBounds config m := by
  have hmake := hused.sameMake
  have hmoderate : Moderate m := hused.moderate (.of_rest rfl rfl)
  have hconfig : m.cpu.config = config := hmake.config
  have hcapacity : m.cpu.stack.capacity = config.stackCapacity :=
    hmake.capacity.trans (Stack.capacity_empty _)
  have hsize : m.memory.size = config.memorySize := hmake.memorySize.trans (Memory.size_zeros _)
  exact
    { settings := hconfig
      capacity := hcapacity
      depth := hcapacity ▸ m.cpu.stack.size_le_capacity
      memorySize := hsize
      order := hmoderate.order
      steps := hconfig ▸ hmoderate.steps }

/-! ## The stack at its ends -/

/-- An instruction that puts a word on the stack, if it gets so far. -/
def Pushes (d : Instruction) : Prop := d.op = .push ∧ Register.IsIndex d.first ∨ d.op = .call

theorem step_snd_of_perform (hfetch : fetch p m = .ok d) (hop : d.op ≠ .interrupt)
    (host : Host σ) (s : σ) :
    (step host p m s).2 =
      match perform d (m.enter d) with
      | .error t _ => some t
      | .ok () _ => none := by
  rw [step_eq, hfetch]
  simp only [carryOut_of_ne_interrupt hop]
  cases perform d (m.enter d) <;> rfl

theorem perform_push {r : Register} (hop : d.op = .push)
    (hr : Register.ofIndex? d.first = some r) :
    perform d m =
      match m.cpu.stack.push (m.cpu.registers.get r) with
      | .ok stack => .ok () { m with cpu := { m.cpu with stack } }
      | .error e => .error (.stack e) m := by
  simp only [perform, hop]
  exact register_bind hr push

theorem perform_pop {r : Register} (hop : d.op = .pop)
    (hr : Register.ofIndex? d.first = some r) :
    perform d m =
      match m.cpu.stack.pop with
      | .ok (v, stack) => assign d.first v { m with cpu := { m.cpu with stack } }
      | .error e => .error (.stack e) m := by
  simp only [perform, hop]
  rw [register_bind hr]
  change EStateM.bind pop (fun v => assign d.first v) m = _
  unfold EStateM.bind pop
  cases m.cpu.stack.pop <;> rfl

/-- A word is put on the stack unless the stack is full. -/
theorem step_eq_overflow (hfetch : fetch p m = .ok d) (hpushes : Pushes d) (host : Host σ)
    (s : σ) :
    (step host p m s).2 =
      if m.cpu.stack.size = m.cpu.stack.capacity then
        some (.stack (.overflow m.cpu.stack.capacity))
      else none := by
  have hpush : ∃ v, (step host p m s).2 =
      match m.cpu.stack.push v with
      | .error e => some (.stack e)
      | .ok _ => none := by
    rcases hpushes with ⟨hop, hindex⟩ | hop
    · obtain ⟨r, hr⟩ := Register.exists_ofIndex?_iff.mpr hindex
      refine ⟨(m.enter d).cpu.registers.get r, ?_⟩
      rw [step_snd_of_perform hfetch (by simp [hop]), perform_push hop hr, stack_enter]
      cases m.cpu.stack.push _ <;> rfl
    · refine ⟨(m.enter d).cpu.pointer - 1, ?_⟩
      rw [step_snd_of_perform hfetch (by simp [hop]), perform_call hop, stack_enter]
      cases m.cpu.stack.push _ <;> rfl
  obtain ⟨v, hpush⟩ := hpush
  by_cases hfull : m.cpu.stack.size = m.cpu.stack.capacity
  · rw [hpush, if_pos hfull, Stack.push_of_size_eq_capacity hfull]
  · obtain ⟨t, ht⟩ := Stack.exists_push_of_size_ne_capacity hfull v
    rw [hpush, if_neg hfull, ht]

/-- A word is taken off the stack unless the stack is empty. -/
theorem step_eq_underflow (hfetch : fetch p m = .ok d) (hop : d.op = .pop)
    (hindex : Register.IsIndex d.first) (host : Host σ) (s : σ) :
    (step host p m s).2 =
      if m.cpu.stack.size = 0 then some (.stack .underflow) else none := by
  obtain ⟨r, hr⟩ := Register.exists_ofIndex?_iff.mpr hindex
  rw [step_snd_of_perform hfetch (by simp [hop]), perform_pop hop hr, stack_enter]
  by_cases hempty : m.cpu.stack.size = 0
  · rw [if_pos hempty, Stack.pop_of_size_eq_zero hempty]
  · obtain ⟨v, t, hpop⟩ := Stack.exists_pop_of_size_ne_zero hempty
    rw [if_neg hempty, hpop]
    simp only [assign_eq hr]

/-- A machine keeps within the bounds of the settings that it was made with, whatever is done with
it.  An instruction that puts a word on its stack traps exactly if the stack holds as many entries
as the settings allow, and one that takes a word off into a register traps exactly if it holds
none. -/
theorem resources_of_used (config : Config) (m : Machine) (hused : Used (Machine.new config) m) :
    WithinBounds config m ∧
    ∀ {σ : Type} (host : Host σ) (p : Program) (s : σ) (d : Instruction), fetch p m = .ok d →
      (Pushes d →
        (step host p m s).2 =
          if m.cpu.stack.size = config.stackCapacity then
            some (.stack (.overflow config.stackCapacity))
          else none) ∧
      (d.op = .pop → Register.IsIndex d.first →
        (step host p m s).2 =
          if m.cpu.stack.size = 0 then some (.stack .underflow) else none) := by
  have hbounds := withinBounds_of_used hused
  refine ⟨hbounds, fun host p s d hfetch => ⟨?_, ?_⟩⟩
  · intro hpushes
    rw [step_eq_overflow hfetch hpushes, hbounds.capacity]
  · intro hop hindex
    exact step_eq_underflow hfetch hop hindex host s

/-- A stack of one entry takes the first of two words, and the second one is refused, though it
comes from another program. -/
theorem resources_of_used_of_push :
    ∃ m : Machine,
      step ScriptedHost.answer ⟨#[28, 0]⟩
          ((Machine.new { memorySize := 4, stackCapacity := 1, maxSteps := some 2 }).loaded
            ⟨#[28, 0]⟩) {} = ((m, {}), none) ∧
        WithinBounds { memorySize := 4, stackCapacity := 1, maxSteps := some 2 } m ∧
        (step ScriptedHost.answer ⟨#[32, 32, 30, 0]⟩ m {}).2 =
          some (.stack (.overflow 1)) := by
  obtain ⟨hbounds, hends⟩ := resources_of_used
    { memorySize := 4, stackCapacity := 1, maxSteps := some 2 } _
    (.step (.load .new ⟨#[28, 0]⟩) ScriptedHost.answer ⟨#[28, 0]⟩ {})
  refine ⟨_, rfl, hbounds, ?_⟩
  exact (hends ScriptedHost.answer ⟨#[32, 32, 30, 0]⟩ {}
    { op := .call, position := 2, first := 0 } rfl).1 (Or.inr rfl)

end Machine

end WordMachine
