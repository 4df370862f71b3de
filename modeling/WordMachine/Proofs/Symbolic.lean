import WordMachine.Proofs.Integrity

/-!
# Running unresolved code

Unresolved code can be run as it is, by a machine that looks labels up when it comes to a jump or
a call.  This file defines that symbolic machine and shows that resolved code does on the plain
machine what the unresolved code does on the symbolic one, for every number of steps.

The distances that resolving writes into the code, the place where the pointer stands while an
instruction is executed and the word that is added afterwards all cancel out against what the
symbolic machine does: a jump goes on behind its label, a call at its label.
-/

namespace WordMachine

/-! ## The symbolic machine -/

namespace Symbolic

/-- A taken jump goes on behind the label that it names. -/
def jump (words : Array Word) (d : Instruction) (m : Machine) : Machine.Progress :=
  match Label.position? words d.first with
  | some target => .finished { m with cpu := m.cpu.goTo (Word.ofCount (target + 2)) }
  | none => .trapped (.outsideProgram d.first) m

/-- A call leaves its own position on the stack and goes on at the label that it names. -/
def call (words : Array Word) (d : Instruction) (m : Machine) : Machine.Progress :=
  match Label.position? words d.first with
  | some target =>
    match m.cpu.stack.push (Word.ofCount d.position) with
    | .ok stack => .finished { m with cpu := { m.cpu with stack }.goTo (Word.ofCount target) }
    | .error e => .trapped (.stack e) m
  | none => .trapped (.outsideProgram d.first) m

/-- Starts a step of the symbolic machine.  It differs from the plain one in jumps that are taken
and in calls. -/
def begin (words : Array Word) (m : Machine) : Machine.Progress :=
  match Machine.fetch ⟨words⟩ m with
  | .error t => .trapped t m
  | .ok d =>
    match d.op with
    | .jump condition =>
      if condition.holds m.cpu.flags then jump words d (m.enter d)
      else .finished (m.enter d).leave
    | .call => call words d (m.enter d)
    | _ => Machine.begin ⟨words⟩ m

variable {σ : Type}

/-- One step of the symbolic machine and its host. -/
def step (host : Host σ) (words : Array Word) (m : Machine) (s : σ) : (Machine × σ) × Option Trap :=
  match begin words m with
  | .finished m => ((m, s), none)
  | .trapped t m => ((m, s), some t)
  | .waiting call m =>
    let (answer, s) := host call s
    let (m, trap?) := Machine.resume call answer m
    ((m, s), trap?)

/-- Makes up to `n` steps with the symbolic machine. -/
def advance (host : Host σ) (words : Array Word) :
    Nat → Machine → σ → (Machine × σ) × Machine.Status
  | 0, m, s => ((m, s), if m.cpu.isRunning then .running else .halted)
  | n + 1, m, s =>
    if m.cpu.isRunning then
      match step host words m s with
      | ((m, s), none) => advance host words n m s
      | ((m, s), some t) => ((m, s), .trapped t)
    else ((m, s), .halted)

end Symbolic

/-! ## Linked instructions and the labels that they name -/

variable {words : Array Word} {p : Program} {code : List Instruction} {d : Instruction}
  {m : Machine}

theorem Machine.begin_of_fetch (hfetch : Machine.fetch p m = .ok d) (hop : d.op ≠ .interrupt) :
    Machine.begin p m =
      match Machine.perform d (m.enter d) with
      | .error t m => .trapped t m
      | .ok () m => .finished m.leave := by
  unfold Machine.begin
  simp only [hfetch, Machine.execute_of_ne_interrupt hop]
  cases Machine.perform d (m.enter d) <;> rfl

theorem Machine.begin_congr {q : Program} (hfetch : Machine.fetch p m = Machine.fetch q m) :
    Machine.begin p m = Machine.begin q m := by
  unfold Machine.begin
  rw [hfetch]

@[simp] theorem enter_link (m : Machine) (d : Instruction) :
    m.enter (Label.link words d) = m.enter d := by
  simp only [Machine.enter, Label.position_link, Label.op_link]

theorem Machine.leave_goTo (m : Machine) (w : Word) :
    Machine.leave { m with cpu := m.cpu.goTo w } = { m with cpu := m.cpu.goTo (w + 1) } := rfl

/-- Outside jumps and calls the symbolic machine is the plain one. -/
theorem Symbolic.begin_of_plain (hfetch : Machine.fetch ⟨words⟩ m = .ok d)
    (hop : d.op.refersToLabel = false) : begin words m = Machine.begin ⟨words⟩ m := by
  unfold begin
  simp only [hfetch]
  split
  · next condition hjump => rw [hjump] at hop; cases hop
  · next hcall => rw [hcall] at hop; cases hop
  · rfl

/-! ## The simulation -/

namespace Resolved

/-- Where resolved code has a linked instruction, unresolved code has the instruction itself. -/
theorem decode?_of_mem (hresolved : Resolved words p code) (hd : d ∈ code) :
    d.position < 0x80000000 ∧ decode? p.words d.position = some (Label.link words d) ∧
      decode? words d.position = some d := by
  have hlinked := List.mem_map_of_mem (f := Label.link words) hd
  have hdecode := hresolved.regular.reads.decode?_of_mem hlinked
  have hlt := hresolved.regular.position_lt hlinked
  rw [Label.position_link] at hdecode hlt
  exact ⟨hlt, hdecode, hresolved.reads.decode?_of_mem hd⟩

theorem destination_link (hresolved : Resolved words p code) (hd : d ∈ code)
    (hop : d.op.refersToLabel = true) {target : Nat}
    (htarget : Label.position? words d.first = some target) :
    (Label.link words d).destination = target := by
  refine Label.destination_link hresolved.reads ?_ hd hop htarget
  have hsize := hresolved.regular.size_lt
  rw [hresolved.size_eq] at hsize
  omega

/-- A jump in resolved code does what it does on the symbolic machine. -/
theorem begin_jump (hresolved : Resolved words p code) (hd : d ∈ code) {condition : Condition}
    (hop : d.op = .jump condition)
    (hfetch : Machine.fetch p m = .ok (Label.link words d))
    (hsource : Machine.fetch ⟨words⟩ m = .ok d) :
    Machine.begin p m = Symbolic.begin words m := by
  have hrefers : d.op.refersToLabel = true := by rw [hop]; rfl
  obtain ⟨target, htarget⟩ := hresolved.found d hd hrefers
  have hlink : (Label.link words d).op = .jump condition := by rw [Label.op_link, hop]
  have hcount : d.op.operandCount = 1 := by rw [hop]; rfl
  -- the pointer stands on the second word of the jump, and the step adds one more
  have hsum : Word.ofCount (d.position + d.op.operandCount) + (Label.link words d).first + 1 =
      Word.ofCount (target + 2) := by
    have hposition := Instruction.position_add_first (by simp [hop, Op.form])
      (by simpa using (hresolved.decode?_of_mem hd).1)
      (hresolved.destination_link hd hrefers htarget)
    rw [Label.position_link] at hposition
    rw [hcount, Word.ofCount_succ_add_add_one, hposition, Word.ofCount_add_two]
  rw [Machine.begin_of_fetch hfetch (by simp [hop]), Machine.perform_jump hlink, enter_link,
    Machine.flags_enter, Machine.pointer_enter]
  simp only [Symbolic.begin, hsource, hop]
  by_cases htaken : condition.holds m.cpu.flags = true
  · rw [hop] at hsum
    simp only [if_pos htaken, Machine.leave_goTo, hsum, Symbolic.jump, htarget]
  · simp only [if_neg htaken]

/-- A call in resolved code does what it does on the symbolic machine. -/
theorem begin_call (hresolved : Resolved words p code) (hd : d ∈ code) (hop : d.op = .call)
    (hfetch : Machine.fetch p m = .ok (Label.link words d))
    (hsource : Machine.fetch ⟨words⟩ m = .ok d) :
    Machine.begin p m = Symbolic.begin words m := by
  have hrefers : d.op.refersToLabel = true := by rw [hop]; rfl
  obtain ⟨target, htarget⟩ := hresolved.found d hd hrefers
  have hlink : (Label.link words d).op = .call := by rw [Label.op_link, hop]
  have hnext : (Label.link words d).first + 1 = Word.ofCount target :=
    Instruction.first_add_one hlink (hresolved.destination_link hd hrefers htarget)
  rw [Machine.begin_of_fetch hfetch (by simp [hop]), Machine.perform_call hlink, enter_link,
    Machine.pointer_enter_sub_one m (by rw [hop]; rfl)]
  simp only [Symbolic.begin, hsource, hop, Symbolic.call, htarget]
  cases (m.enter d).cpu.stack.push (Word.ofCount d.position) with
  | error e => rfl
  | ok stack => rw [← hnext]; rfl

/-- One step of resolved code is one step of the unresolved code on the symbolic machine. -/
theorem begin_eq (hresolved : Resolved words p code) (hd : d ∈ code)
    (hpointer : m.cpu.pointer = Word.ofCount d.position) :
    Machine.begin p m = Symbolic.begin words m := by
  obtain ⟨hsmall, hlinked, hdecode⟩ := hresolved.decode?_of_mem hd
  have hfetch := Machine.fetch_of_decode? (p := p) hpointer hsmall hlinked
  have hsource := Machine.fetch_of_decode? (p := ⟨words⟩) hpointer hsmall hdecode
  cases hlimit : m.cpu.reachedLimit? with
  | some limit =>
      simp only [hlimit] at hfetch hsource
      simp only [Machine.begin, Symbolic.begin, hfetch, hsource]
  | none =>
      simp only [hlimit] at hfetch hsource
      cases hrefers : d.op.refersToLabel with
      | false =>
          rw [Label.link_of_not_refersToLabel hrefers] at hfetch
          rw [Symbolic.begin_of_plain hsource hrefers]
          exact Machine.begin_congr (hfetch.trans hsource.symm)
      | true =>
          rcases Label.jump_or_call_of_refersToLabel hrefers with ⟨condition, hjump⟩ | hcall
          · exact hresolved.begin_jump hd hjump hfetch hsource
          · exact hresolved.begin_call hd hcall hfetch hsource

variable {σ : Type} {host : Host σ}

theorem step_eq (hresolved : Resolved words p code)
    (hwithin : Within p (fun i => p.starts.has i = true) m) (hrunning : m.cpu.isRunning = true)
    (s : σ) : Machine.step host p m s = Symbolic.step host words m s := by
  obtain ⟨d, hd, -, hpointer⟩ :=
    hwithin.exists_mem hresolved.regular (region_starts p) hrunning
  obtain ⟨e, he, rfl⟩ := List.mem_map.mp hd
  rw [Label.position_link] at hpointer
  have hbegin := hresolved.begin_eq he hpointer
  unfold Machine.step Symbolic.step
  cases hprogress : Symbolic.begin words m <;> simp only [hbegin, hprogress]

/-- From a state within the code, both machines make the same steps. -/
theorem advance_eq (hresolved : Resolved words p code) (k : Nat)
    (hwithin : Within p (fun i => p.starts.has i = true) m) (s : σ) :
    Machine.advance host p k m s = Symbolic.advance host words k m s := by
  induction k generalizing m s with
  | zero => rfl
  | succ k ih =>
      rw [Machine.advance_succ, Symbolic.advance]
      by_cases hrunning : m.cpu.isRunning = true
      · rw [if_pos hrunning, if_pos hrunning, ← hresolved.step_eq hwithin hrunning s]
        cases hstep : Machine.step host p m s with
        | mk c trap? =>
            cases trap? with
            | none => exact ih (hwithin.step hresolved.regular (region_starts p) hrunning hstep) c.2
            | some t => rfl
      · rw [if_neg hrunning, if_neg hrunning]

end Resolved

/-- Resolved code runs on the plain machine as the unresolved code runs on the symbolic one: after
every number of steps the machines, the hosts and the way the runs have come to an end are the
same. -/
theorem advance_eq_symbolic_advance {σ : Type} (hsmall : words.size < 0x7fffffff)
    (hresolve : Label.resolve words = .ok p) (hwords : DisciplinedCode words) (host : Host σ)
    (m : Machine) (s : σ) (k : Nat) :
    Machine.advance host p k (m.loaded p) s =
      Symbolic.advance host words k (m.loaded ⟨words⟩) s := by
  obtain ⟨code, hresolved⟩ := exists_resolved hsmall hresolve hwords
  have hloaded : m.loaded ⟨words⟩ = m.loaded p := by
    simp only [Machine.loaded, Cpu.load, hresolved.size_eq]
    rfl
  rw [hloaded]
  exact hresolved.advance_eq k (.loaded hresolved.regular (fun h => h) m) s

/-- A program that jumps over its first `hlt`, calls its second label and halts behind the call. -/
theorem advance_eq_symbolic_advance_of_jump_and_call :
    Label.resolve #[19, 7, 32, 18, 7, 30, 9, 32, 18, 9, 31] =
        .ok ⟨#[19, 3, 32, 18, 7, 30, 7, 32, 18, 9, 31]⟩ ∧
      (Symbolic.advance ScriptedHost.answer #[19, 7, 32, 18, 7, 30, 9, 32, 18, 9, 31] 5
        ((Machine.new { memorySize := 0 }).loaded ⟨#[19, 7, 32, 18, 7, 30, 9, 32, 18, 9, 31]⟩)
        {}).2 = .halted ∧
      Machine.advance ScriptedHost.answer ⟨#[19, 3, 32, 18, 7, 30, 7, 32, 18, 9, 31]⟩ 5
          ((Machine.new { memorySize := 0 }).loaded ⟨#[19, 3, 32, 18, 7, 30, 7, 32, 18, 9, 31]⟩)
          {} =
        Symbolic.advance ScriptedHost.answer #[19, 7, 32, 18, 7, 30, 9, 32, 18, 9, 31] 5
          ((Machine.new { memorySize := 0 }).loaded ⟨#[19, 7, 32, 18, 7, 30, 9, 32, 18, 9, 31]⟩)
          {} := by
  have hresolve : Label.resolve #[19, 7, 32, 18, 7, 30, 9, 32, 18, 9, 31] =
      .ok ⟨#[19, 3, 32, 18, 7, 30, 7, 32, 18, 9, 31]⟩ := by
    with_unfolding_all rfl
  refine ⟨hresolve, by decide +kernel, ?_⟩
  exact advance_eq_symbolic_advance (by decide) hresolve (by decide +kernel) _ _ _ _

end WordMachine
