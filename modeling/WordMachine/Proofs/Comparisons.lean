import WordMachine.Proofs.Calls

/-!
# Jumps act on the last comparison

A comparison sets one of three flags and clears the other two.  Only the arithmetic operations and
another comparison set these flags anew.  Counting a register up or down sets a flag too, but not one
of the three, and nothing else touches the flags at all.  So a conditional jump compares the two
values that the last comparison has read, however long ago that was and whatever has become of the
registers since.

* `Flags.SameOrder`: the three flags have not changed.
* `RunsWithout`: a run in which some operations do not occur.
* `Instruction.Compares`: the values that a comparison reads, in the order in which a jump compares
  them.
-/

namespace WordMachine

/-! ## The flags of a comparison -/

/-- Flags that say the same of a comparison. -/
structure Flags.SameOrder (f f' : Flags) : Prop where
  equal : f'.equal = f.equal
  greater : f'.greater = f.greater
  lower : f'.lower = f.lower

namespace Flags

variable {f f' f'' : Flags}

theorem SameOrder.refl (f : Flags) : f.SameOrder f := ⟨rfl, rfl, rfl⟩

theorem SameOrder.trans (h : f.SameOrder f') (h' : f'.SameOrder f'') : f.SameOrder f'' :=
  ⟨h'.equal.trans h.equal, h'.greater.trans h.greater, h'.lower.trans h.lower⟩

theorem SameOrder.holds_eq (h : f.SameOrder f') (condition : Condition) :
    condition.holds f' = condition.holds f := by
  cases condition with
  | always => rfl
  | equal => exact h.equal
  | notEqual => exact congrArg (!·) h.equal
  | greater => exact h.greater
  | lower => exact h.lower

/-- How many of the flags of a comparison are set. -/
def orderCount (f : Flags) : Nat := [f.equal, f.greater, f.lower].count true

theorem SameOrder.orderCount_eq (h : f.SameOrder f') : f'.orderCount = f.orderCount := by
  rw [orderCount, h.equal, h.greater, h.lower, orderCount]

/-- A comparison sets exactly one of its flags. -/
theorem orderCount_compare (f : Flags) (first second : Word) :
    (f.compare first second).orderCount = 1 := by
  rw [orderCount, compare]
  rcases Int.lt_trichotomy second.toInt first.toInt with hlt | heq | hgt
  · simp [hlt, Int.ne_of_lt hlt, Int.not_lt.mpr (Int.le_of_lt hlt)]
  · simp [heq]
  · simp [hgt, Int.ne_of_gt hgt, Int.not_lt.mpr (Int.le_of_lt hgt)]

end Flags

/-- What the condition of a jump says of two words. -/
def Condition.Relates : Condition → Word → Word → Prop
  | .always, _, _ => True
  | .equal, x, y => x = y
  | .notEqual, x, y => x ≠ y
  | .greater, x, y => y.toInt < x.toInt
  | .lower, x, y => x.toInt < y.toInt

/-- After a comparison a condition holds if it is true of the words, the second of which comes
first. -/
theorem Condition.holds_compare_iff (condition : Condition) (f : Flags) (x y : Word) :
    condition.holds (f.compare y x) = true ↔ condition.Relates x y := by
  have hequal : (f.compare y x).equal = true ↔ x = y := by
    rw [Flags.compare, decide_eq_true_iff, Int32.toInt_inj]
  cases condition with
  | always => exact iff_of_true rfl trivial
  | equal => exact hequal
  | notEqual =>
      change (!(f.compare y x).equal) = true ↔ x ≠ y
      rw [Bool.not_eq_true', ← Bool.not_eq_true, hequal]
  | greater => exact decide_eq_true_iff
  | lower => exact decide_eq_true_iff

/-- Whether an operation sets the flags of a comparison anew. -/
def Op.setsOrder : Op → Bool
  | .binary op _ => op.setsFlags
  | .compare _ => true
  | _ => false

/-- The words that a comparison reads, the one that a jump takes for the left one first: the
register before the value, but the second register before the first. -/
inductive Instruction.Compares (d : Instruction) (f : Registers) : Word → Word → Prop
  | value {r : Register} (hop : d.op = .compare .immediate)
      (hr : Register.ofIndex? d.first = some r) : Compares d f (f.get r) d.second
  | registers {q r : Register} (hop : d.op = .compare .register)
      (hq : Register.ofIndex? d.first = some q) (hr : Register.ofIndex? d.second = some r) :
      Compares d f (f.get r) (f.get q)

namespace Machine

variable {σ : Type} {host : Host σ} {p : Program} {d : Instruction} {m m' : Machine} {s s' : σ}
  {c c' : Machine × σ}

/-! ## One step -/

theorem flags_notMem_touches (hop : d.op.setsOrder = false)
    (hcount : ¬ (d.op = .increment ∨ d.op = .decrement)) : .flags ∉ d.touches := by
  have hfirst : .flags ∉ d.firstRegister := by simp [Instruction.firstRegister]
  cases hcase : d.op with
  | binary op mode =>
      rw [hcase] at hop
      have hnone : op.setsFlags = false := hop
      simp only [Instruction.touches, hcase, hnone, List.mem_append]
      rintro ((hflags | hr6) | hwritten)
      · cases hflags
      · split at hr6 <;> simp at hr6
      · exact hfirst hwritten
  | compare => rw [hcase] at hop; cases hop
  | not | load | pop => simpa [Instruction.touches, hcase] using hfirst
  | increment => exact absurd (Or.inl hcase) hcount
  | decrement => exact absurd (Or.inr hcase) hcount
  | label | jump | store | push | call | retn | halt | interrupt =>
      simp [Instruction.touches, hcase]

/-- Counting a register up or down sets the flags as it says, and nothing else. -/
theorem flags_of_stepRegister {value : Word → Word} {flag : Word → Flags → Flags}
    (hstep : stepRegister d value flag m = .ok () m') : ∃ c, m'.cpu.flags = flag c m.cpu.flags := by
  obtain ⟨c, m₁, hregister, hrest⟩ := bind_eq_ok_iff.mp hstep
  obtain rfl := register_eq_ok hregister
  obtain ⟨_, m₂, hflags, hassign⟩ := bind_eq_ok_iff.mp hrest
  cases hflags
  exact ⟨c, (agreeOff_of_assign hassign).flags (by decide)⟩

theorem exists_stepRegister (hop : d.op = .increment ∨ d.op = .decrement) :
    ∃ value flag, perform d m = stepRegister d value flag m ∧
      ∀ c f, Flags.SameOrder f (flag c f) := by
  rcases hop with hop | hop
  · refine ⟨(· + 1), fun c f => { f with overflow := !Word.fits (c.toInt + 1) }, ?_,
      fun c f => ⟨rfl, rfl, rfl⟩⟩
    simp only [perform, hop]
  · refine ⟨(· - 1), fun c f => { f with underflow := !Word.fits (c.toInt - 1) }, ?_,
      fun c f => ⟨rfl, rfl, rfl⟩⟩
    simp only [perform, hop]

/-- An instruction that does not set the flags of a comparison anew keeps them. -/
theorem sameOrder_of_carryOut (hop : d.op.setsOrder = false)
    (hcarry : carryOut host d m s = .ok () (m', s')) : m.cpu.flags.SameOrder m'.cpu.flags := by
  by_cases hcount : d.op = .increment ∨ d.op = .decrement
  · have hinterrupt : d.op ≠ .interrupt := by rcases hcount with hop | hop <;> simp [hop]
    obtain ⟨value, flag, hperform, hkeeps⟩ := exists_stepRegister (m := m) hcount
    rw [carryOut_of_perform hinterrupt hcarry] at hperform
    obtain ⟨c, hflags⟩ := flags_of_stepRegister hperform.symm
    rw [hflags]
    exact hkeeps c m.cpu.flags
  · -- no other of these instructions touches the flags
    have hflags := (agreeOff_of_carryOut hcarry).flags (flags_notMem_touches hop hcount)
    rw [hflags]
    exact .refl _

/-- A comparison sets its flags by the words that it reads. -/
theorem flags_of_compare {mode : Addressing} (hop : d.op = .compare mode)
    (hcarry : carryOut host d m s = .ok () (m', s')) :
    ∃ x y, d.Compares m.cpu.registers x y ∧ m'.cpu.flags = m.cpu.flags.compare y x := by
  have hperform := carryOut_of_perform (by simp [hop]) hcarry
  cases mode with
  | immediate =>
      simp only [perform, hop] at hperform
      obtain ⟨v, m₁, hfirst, hflags⟩ := bind_eq_ok_iff.mp hperform
      obtain ⟨rfl, r, hr, rfl⟩ := register_eq_ok_iff.mp hfirst
      cases hflags
      exact ⟨_, _, .value hop hr, rfl⟩
  | register =>
      simp only [perform, hop] at hperform
      obtain ⟨v, m₁, hfirst, hrest⟩ := bind_eq_ok_iff.mp hperform
      obtain ⟨rfl, q, hq, rfl⟩ := register_eq_ok_iff.mp hfirst
      obtain ⟨w, m₂, hsecond, hflags⟩ := bind_eq_ok_iff.mp hrest
      obtain ⟨rfl, r, hr, rfl⟩ := register_eq_ok_iff.mp hsecond
      cases hflags
      exact ⟨_, _, .registers hop hq hr, rfl⟩

/-- A jump goes by its distance from its own position if its condition holds, and else on to the next
instruction. -/
theorem step_jump (host : Host σ) (s : σ) (hfetch : fetch p m = .ok d) {condition : Condition}
    (hop : d.op = .jump condition) :
    ∃ m₁, step host p m s = ((m₁, s), none) ∧
      m₁.cpu.pointer =
        if condition.holds m.cpu.flags then Word.ofCount d.position + d.first + 2
        else Word.ofCount d.next := by
  refine ⟨_, step_of_perform hfetch (by simp [hop]) (perform_jump hop), ?_⟩
  have hcount : d.op.operandCount = 1 := by rw [hop]; rfl
  rw [flags_enter, pointer_leave]
  split
  · exact pointer_enter_add_first_add_one m hcount
  · exact pointer_enter_add_one m d

/-- A step that succeeds carries out the instruction that it has fetched. -/
theorem carryOut_of_step (hfetch : fetch p m = .ok d) (hstep : step host p m s = (c, none)) :
    ∃ m₁, carryOut host d (m.enter d) s = .ok () (m₁, c.2) ∧ c.1 = m₁.leave := by
  obtain ⟨e, m₁, hfetched, hcarry, hleave⟩ := step_eq_none_iff.mp hstep
  obtain rfl : d = e := Except.ok.inj (hfetch.symm.trans hfetched)
  exact ⟨m₁, hcarry, hleave⟩

theorem sameOrder_of_step (hfetch : fetch p m = .ok d) (hop : d.op.setsOrder = false)
    (hstep : step host p m s = (c, none)) : m.cpu.flags.SameOrder c.1.cpu.flags := by
  obtain ⟨m₁, hcarry, hleave⟩ := carryOut_of_step hfetch hstep
  have hsame : (m.enter d).cpu.flags.SameOrder m₁.cpu.flags := sameOrder_of_carryOut hop hcarry
  rw [hleave]
  exact hsame

/-! ## Runs -/

/-- A run of successful steps in which no operation occurs that is excluded. -/
inductive RunsWithout (host : Host σ) (p : Program) (excluded : Op → Bool)
    (first : Machine × σ) : Machine × σ → Prop
  | first : RunsWithout host p excluded first first
  | step {m : Machine} {s : σ} {d : Instruction} {c : Machine × σ}
      (hrun : RunsWithout host p excluded first (m, s)) (hfetch : fetch p m = .ok d)
      (hop : excluded d.op = false) (hstep : step host p m s = (c, none)) :
      RunsWithout host p excluded first c

theorem RunsWithout.sameOrder (hrun : RunsWithout host p Op.setsOrder c c') :
    c.1.cpu.flags.SameOrder c'.1.cpu.flags := by
  induction hrun with
  | first => exact .refl _
  | step _ hfetch hop hstep ih => exact ih.trans (sameOrder_of_step hfetch hop hstep)

/-- A conditional jump acts on the last comparison.  After a comparison and any run of successful
steps without arithmetic operations and further comparisons, exactly one of the three flags is set;
and a jump goes where it says if its condition is true of the words that the comparison has read,
and else on to the next instruction. -/
theorem jump_after_comparison (host : Host σ) (p : Program) (m : Machine) (s : σ)
    {mode : Addressing} {m₂ : Machine} {s₂ : σ} (hfetch : fetch p m = .ok d)
    (hop : d.op = .compare mode) (hstep : step host p m s = (c, none))
    (hrun : RunsWithout host p Op.setsOrder c (m₂, s₂)) :
    ∃ x y, d.Compares (m.enter d).cpu.registers x y ∧
      m₂.cpu.flags.orderCount = 1 ∧
      ∀ condition : Condition,
        (condition.holds m₂.cpu.flags = true ↔ condition.Relates x y) ∧
        ∀ e, fetch p m₂ = .ok e → e.op = .jump condition →
          ∃ m₃, step host p m₂ s₂ = ((m₃, s₂), none) ∧
            (condition.Relates x y →
              m₃.cpu.pointer = Word.ofCount e.position + e.first + 2) ∧
            (¬ condition.Relates x y → m₃.cpu.pointer = Word.ofCount e.next) := by
  obtain ⟨m₁, hcarry, hleave⟩ := carryOut_of_step hfetch hstep
  obtain ⟨x, y, hcompares, hflags⟩ := flags_of_compare hop hcarry
  have hsame : (m.cpu.flags.compare y x).SameOrder m₂.cpu.flags := by
    have hkept := hrun.sameOrder
    rw [hleave] at hkept
    exact hflags ▸ hkept
  have hholds (condition : Condition) :
      condition.holds m₂.cpu.flags = true ↔ condition.Relates x y := by
    rw [hsame.holds_eq, Condition.holds_compare_iff]
  refine ⟨x, y, hcompares, ?_, ?_⟩
  · rw [hsame.orderCount_eq, Flags.orderCount_compare]
  · intro condition
    refine ⟨hholds condition, ?_⟩
    intro e hjump hcondition
    obtain ⟨m₃, hlast, hpointer⟩ := step_jump host s₂ hjump hcondition
    refine ⟨m₃, hlast, ?_, ?_⟩
    · intro hrelates
      rw [hpointer, if_pos ((hholds condition).mpr hrelates)]
    · intro hrelates
      rw [hpointer, if_neg (mt (hholds condition).mp hrelates)]

/-- A register that has been found to be zero is counted up before the jump, which is taken all the
same. -/
theorem jump_after_comparison_of_increment :
    ∃ m₁ m₂ m₃ : Machine,
      step ScriptedHost.answer ⟨#[7, 0, 0, 16, 0, 20, 2, 18, 9, 32]⟩
          (Machine.new { memorySize := 0 }) {} = ((m₁, {}), none) ∧
        step ScriptedHost.answer ⟨#[7, 0, 0, 16, 0, 20, 2, 18, 9, 32]⟩ m₁ {} =
          ((m₂, {}), none) ∧
        step ScriptedHost.answer ⟨#[7, 0, 0, 16, 0, 20, 2, 18, 9, 32]⟩ m₂ {} =
          ((m₃, {}), none) ∧
        m₂.cpu.registers.r1 = 1 ∧ m₃.cpu.pointer = 9 := by
  obtain ⟨x, y, hcompares, -, hjumps⟩ := jump_after_comparison ScriptedHost.answer
    ⟨#[7, 0, 0, 16, 0, 20, 2, 18, 9, 32]⟩ (Machine.new { memorySize := 0 }) {}
    (d := { op := .compare .immediate, position := 0, first := 0, second := 0 })
    rfl rfl rfl (.step .first rfl rfl rfl)
  obtain ⟨m₃, hlast, htaken, -⟩ := (hjumps .equal).2 _ rfl rfl
  refine ⟨_, _, m₃, rfl, rfl, hlast, rfl, htaken ?_⟩
  cases hcompares with
  | value _ hr =>
      change some Register.r1 = some _ at hr
      cases hr
      rfl
  | registers hop _ _ => cases hop

end Machine

end WordMachine
