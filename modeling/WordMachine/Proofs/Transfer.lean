import WordMachine.Proofs.Frames
import WordMachine.Proofs.Positions
import WordMachine.Proofs.Reading

/-!
# What a step does to the pointer and the stack

`step` is written for a machine that waits for its host in the middle of an instruction.  Here it is
first put into one piece: a step fetches an instruction, carries it out (`carryOut`) and moves the
pointer on (`step_eq`, and `step_eq_none_iff` for the steps that succeed).

Everything that later files know of the control flow of the machine is then said by two
case distinctions:

* `Stack.Move`: a step leaves the stack alone, puts a word on it or takes a word off;
* `Transfer`: where the pointer goes and what becomes of the stack, for an instruction that does
  not interfere with either by other means (`Instruction.Disciplined`).
-/

namespace WordMachine

namespace Machine

variable {σ : Type} {host : Host σ} {p : Program} {d : Instruction} {m m' : Machine} {s s' : σ}

/-! ## A step in one piece -/

/-- Carries an instruction out to its end; the host answers if it is asked. -/
def carryOut (host : Host σ) (d : Instruction) (m : Machine) (s : σ) :
    EStateM.Result Trap (Machine × σ) Unit :=
  match execute d m with
  | .error t m => .error t (m, s)
  | .ok none m => .ok () (m, s)
  | .ok (some call) m =>
    let (answer, s) := host call s
    match receive call answer m with
    | .error t m => .error t (m, s)
    | .ok () m => .ok () (m, s)

/-- A step fetches an instruction, carries it out and moves the pointer on. -/
theorem step_eq (host : Host σ) (p : Program) (m : Machine) (s : σ) :
    step host p m s =
      match fetch p m with
      | .error t => ((m, s), some t)
      | .ok d =>
        match carryOut host d (m.enter d) s with
        | .error t c => (c, some t)
        | .ok () c => ((c.1.leave, c.2), none) := by
  unfold step begin carryOut
  cases fetch p m with
  | error t => rfl
  | ok d =>
      simp only
      cases execute d (m.enter d) with
      | error t m₁ => rfl
      | ok call? m₁ =>
          cases call? with
          | none => rfl
          | some call =>
              simp only [resume]
              cases receive call (host call s).1 m₁ <;> rfl

theorem step_eq_none_iff {c : Machine × σ} :
    step host p m s = (c, none) ↔
      ∃ d m₁, fetch p m = .ok d ∧ carryOut host d (m.enter d) s = .ok () (m₁, c.2) ∧
        c.1 = m₁.leave := by
  rw [step_eq]
  constructor
  · intro h
    split at h
    · cases h
    · next d hfetch =>
      split at h
      · cases h
      · next c₁ hcarry =>
        cases h
        exact ⟨d, c₁.1, hfetch, hcarry, rfl⟩
  · rintro ⟨d, m₁, hfetch, hcarry, hleave⟩
    simp only [hfetch, hcarry, ← hleave]

/-- A step that traps has no instruction to carry out, or the instruction traps. -/
theorem step_eq_some_iff {c : Machine × σ} {t : Trap} :
    step host p m s = (c, some t) ↔
      (fetch p m = .error t ∧ c = (m, s)) ∨
        ∃ d, fetch p m = .ok d ∧ carryOut host d (m.enter d) s = .error t c := by
  rw [step_eq]
  constructor
  · intro h
    split at h
    · next t' hfetch =>
      cases h
      exact Or.inl ⟨hfetch, rfl⟩
    · next d hfetch =>
      split at h
      · next t' c' hcarry =>
        cases h
        exact Or.inr ⟨d, hfetch, hcarry⟩
      · cases h
  · rintro (⟨hfetch, rfl⟩ | ⟨d, hfetch, hcarry⟩)
    · simp only [hfetch]
    · simp only [hfetch, hcarry]

/-! ## Fetching -/

/-- An instruction is fetched where it stands, unless the step limit is reached. -/
theorem fetch_of_decode? {i : Nat} (hpointer : m.cpu.pointer = Word.ofCount i)
    (hsmall : i < 0x80000000) (hdecode : decode? p.words i = some d) :
    fetch p m =
      match m.cpu.reachedLimit? with
      | some limit => .error (.stepLimit limit)
      | none => .ok d := by
  simp only [fetch, hpointer, Word.toIndex?_ofCount hsmall, getElem?_of_decode?_opcode hdecode,
    hdecode]
  cases m.cpu.reachedLimit? <;> rfl

/-- A fetched instruction stands where the pointer is. -/
theorem decode?_of_fetch (hfetch : fetch p m = .ok d) :
    m.cpu.pointer.toInt = d.position ∧ decode? p.words d.position = some d := by
  unfold fetch at hfetch
  split at hfetch
  · cases hfetch
  · next i hindex =>
    split at hfetch
    · cases hfetch
    · cases hfetch
    · split at hfetch
      · next hdecode =>
        cases hfetch
        rw [position_of_decode? hdecode]
        exact ⟨Word.toIndex?_eq_some.mp hindex, hdecode⟩
      · cases hfetch

@[simp] theorem pointer_enter (m : Machine) (d : Instruction) :
    (m.enter d).cpu.pointer = Word.ofCount (d.position + d.op.operandCount) := rfl

@[simp] theorem stack_enter (m : Machine) (d : Instruction) :
    (m.enter d).cpu.stack = m.cpu.stack := rfl

@[simp] theorem flags_enter (m : Machine) (d : Instruction) :
    (m.enter d).cpu.flags = m.cpu.flags := rfl

@[simp] theorem programSize_enter (m : Machine) (d : Instruction) :
    (m.enter d).cpu.programSize = m.cpu.programSize := rfl

@[simp] theorem pointer_leave (m : Machine) : m.leave.cpu.pointer = m.cpu.pointer + 1 := rfl

@[simp] theorem stack_leave (m : Machine) : m.leave.cpu.stack = m.cpu.stack := rfl

@[simp] theorem programSize_leave (m : Machine) : m.leave.cpu.programSize = m.cpu.programSize := rfl

/-! ## Carrying out -/

/-- No instruction but `int` asks for the host. -/
theorem execute_of_ne_interrupt (hop : d.op ≠ .interrupt) :
    execute d m =
      match perform d m with
      | .error t m => .error t m
      | .ok () m => .ok none m := by
  have hexecute : execute d = (do perform d; return none) := by
    unfold execute
    split
    · contradiction
    · rfl
  rw [hexecute]
  change EStateM.bind (perform d) (fun _ => pure none) m = _
  unfold EStateM.bind
  cases perform d m <;> rfl

/-- The host has a part in no instruction but `int`. -/
theorem carryOut_of_ne_interrupt (hop : d.op ≠ .interrupt) :
    carryOut host d m s =
      match perform d m with
      | .error t m => .error t (m, s)
      | .ok () m => .ok () (m, s) := by
  unfold carryOut
  rw [execute_of_ne_interrupt hop]
  cases perform d m <;> rfl

theorem interrupt_of_execute {call : HostCall} (hexecute : execute d m = .ok (some call) m') :
    d.op = .interrupt := by
  by_cases hop : d.op = .interrupt
  · exact hop
  · rw [execute_of_ne_interrupt hop] at hexecute
    split at hexecute <;> cases hexecute

/-- An instruction that is carried out changes only the parts it touches. -/
theorem agreeOff_of_carryOut (hcarry : carryOut host d m s = .ok () (m', s')) :
    AgreeOff d.touches m m' := by
  unfold carryOut at hcarry
  split at hcarry
  · cases hcarry
  · next m₁ hexecute =>
    cases hcarry
    exact (Confined.execute d).ok hexecute
  · next call m₁ hexecute =>
    have hop := interrupt_of_execute hexecute
    simp only at hcarry
    split at hcarry
    · cases hcarry
    · next m₂ hreceive =>
      cases hcarry
      refine ((Confined.execute d).ok hexecute).trans (Confined.ok ?_ hreceive)
      exact .receive (by simp [Instruction.touches, hop]) (by simp [Instruction.touches, hop]) ..

/-- An instruction that traps has changed only the parts it touches, and it traps for a reason of
its own. -/
theorem agreeOff_of_carryOut_error {t : Trap} {c : Machine × σ}
    (hcarry : carryOut host d m s = .error t c) :
    AgreeOff d.touches m c.1 ∧ t.isOfFetch = false := by
  unfold carryOut at hcarry
  split at hcarry
  · next t₁ m₁ hexecute =>
    cases hcarry
    exact (Confined.execute d).error hexecute
  · cases hcarry
  · next call m₁ hexecute =>
    have hop := interrupt_of_execute hexecute
    have hreceives : ∀ answer, Confined d.touches (receive call answer) := fun answer =>
      .receive (by simp [Instruction.touches, hop]) (by simp [Instruction.touches, hop]) call answer
    simp only at hcarry
    split at hcarry
    · next t₂ m₂ hreceive =>
      cases hcarry
      obtain ⟨hagree, htrap⟩ := (hreceives _).error hreceive
      exact ⟨((Confined.execute d).ok hexecute).trans hagree, htrap⟩
    · cases hcarry

/-! ## The instructions that move the pointer or the stack -/

theorem bind_eq_ok_iff {α β : Type} {x : Action α} {f : α → Action β} {b : β} :
    (x >>= f) m = .ok b m' ↔ ∃ a m₁, x m = .ok a m₁ ∧ f a m₁ = .ok b m' := by
  change EStateM.bind x f m = _ ↔ _
  unfold EStateM.bind
  cases x m with
  | ok a m₁ =>
      constructor
      · intro h
        exact ⟨a, m₁, rfl, h⟩
      · rintro ⟨a', m₂, hok, h⟩
        cases hok
        exact h
  | error t m₁ => simp

theorem perform_jump {condition : Condition} (hop : d.op = .jump condition) :
    perform d m = .ok ()
      (if condition.holds m.cpu.flags then { m with cpu := m.cpu.goTo (m.cpu.pointer + d.first) }
      else m) := by
  simp only [perform, hop]
  split <;> rfl

theorem perform_call (hop : d.op = .call) :
    perform d m =
      match m.cpu.stack.push (m.cpu.pointer - 1) with
      | .ok stack => .ok () { m with cpu := { m.cpu with stack }.goTo d.first }
      | .error e => .error (.stack e) m := by
  simp only [perform, hop]
  change EStateM.bind (push (m.cpu.pointer - 1)) (fun _ => goTo d.first) m = _
  unfold EStateM.bind push
  cases m.cpu.stack.push (m.cpu.pointer - 1) <;> rfl

/-- With nothing on the stack, a return ends the program. -/
theorem perform_retn (hop : d.op = .retn) :
    perform d m =
      match m.cpu.stack.pop with
      | .ok (v, stack) => .ok () { m with cpu := { m.cpu with stack }.goTo (v + 1) }
      | .error _ => .ok () { m with cpu := m.cpu.halt } := by
  simp only [perform, hop]
  change (if m.cpu.stack.isEmpty = true then halt
    else pop >>= fun v => goTo (v + 1) : Action Unit) m = _
  cases hentries : m.cpu.stack.entries with
  | nil =>
      have hpop : m.cpu.stack.pop = .error .underflow := by simp only [Stack.pop, hentries]
      rw [if_pos (by rw [Stack.isEmpty, hentries]; rfl), hpop]
      rfl
  | cons v rest =>
      have hpop : m.cpu.stack.pop = .ok (v, { entries := rest, free := m.cpu.stack.free + 1 }) := by
        simp only [Stack.pop, hentries]
      rw [if_neg (by rw [Stack.isEmpty, hentries]; exact Bool.false_ne_true), hpop]
      change EStateM.bind pop (fun v => goTo (v + 1)) m = _
      simp only [EStateM.bind, pop, hpop]
      rfl

theorem perform_halt (hop : d.op = .halt) :
    perform d m = .ok () { m with cpu := m.cpu.halt } := by
  simp only [perform, hop]
  rfl

theorem register_eq_ok_iff {index v : Word} :
    register index m = .ok v m' ↔
      m' = m ∧ ∃ r, Register.ofIndex? index = some r ∧ v = m.cpu.registers.get r := by
  unfold register
  constructor
  · intro hregister
    split at hregister
    · next r hr =>
      cases hregister
      exact ⟨rfl, r, hr, rfl⟩
    · cases hregister
  · rintro ⟨rfl, r, hr, rfl⟩
    simp only [hr]

theorem register_eq_ok {index v : Word} (hregister : register index m = .ok v m') : m' = m :=
  (register_eq_ok_iff.mp hregister).1

theorem agreeOff_of_assign {index v : Word} (hassign : assign index v m = .ok () m') :
    AgreeOff (Register.all.map .register) m m' :=
  (Confined.assign (fun r _ => List.mem_map_of_mem (Register.mem_all r)) v).ok hassign

theorem push_of_perform (hop : d.op = .push) (hperform : perform d m = .ok () m') :
    ∃ v, m.cpu.stack.push v = .ok m'.cpu.stack := by
  simp only [perform, hop] at hperform
  obtain ⟨v, m₁, hregister, hpush⟩ := bind_eq_ok_iff.mp hperform
  obtain rfl := register_eq_ok hregister
  unfold push at hpush
  split at hpush <;> cases hpush
  exact ⟨v, by assumption⟩

theorem pop_of_perform (hop : d.op = .pop) (hperform : perform d m = .ok () m') :
    ∃ v, m.cpu.stack.pop = .ok (v, m'.cpu.stack) := by
  simp only [perform, hop] at hperform
  obtain ⟨old, m₁, hregister, hrest⟩ := bind_eq_ok_iff.mp hperform
  obtain rfl := register_eq_ok hregister
  obtain ⟨v, m₂, hpop, hassign⟩ := bind_eq_ok_iff.mp hrest
  -- the register that is written afterwards is no part of the stack
  have hstack : m'.cpu.stack = m₂.cpu.stack := (agreeOff_of_assign hassign).stack (by decide)
  unfold pop at hpop
  split at hpop <;> cases hpop
  exact ⟨v, by rw [hstack]; assumption⟩

end Machine

/-! ## The stack -/

/-- What a step can do to a stack: nothing, put a word on it or take a word off. -/
inductive Stack.Move : Stack → Stack → Prop
  | keep (t : Stack) : Move t t
  | push {t t' : Stack} {v : Word} (hpush : t.push v = .ok t') : Move t t'
  | pop {t t' : Stack} {v : Word} (hpop : t.pop = .ok (v, t')) : Move t t'

theorem Stack.entries_of_push {t t' : Stack} {v : Word} (hpush : t.push v = .ok t') :
    t'.entries = v :: t.entries := by
  unfold Stack.push at hpush
  split at hpush <;> cases hpush
  rfl

theorem Stack.entries_of_pop {t t' : Stack} {v : Word} (hpop : t.pop = .ok (v, t')) :
    t.entries = v :: t'.entries := by
  unfold Stack.pop at hpop
  split at hpop <;> cases hpop
  assumption

/-- Whether an operation moves the pointer by other means than its own length or through a
register. -/
def Op.transfers : Op → Bool
  | .jump _ | .call | .retn | .halt => true
  | _ => false

/-- An instruction that puts no words of its own on the stack and does not write the instruction
pointer as a register. -/
def Instruction.Disciplined (d : Instruction) : Prop :=
  d.op ≠ .push ∧ (d.op.writesRegister = true → d.first ≠ Register.rip.code)

theorem Register.ofIndex?_eq_some_iff {w : Word} {r : Register} :
    ofIndex? w = some r ↔ w = r.code := by
  constructor
  · intro hr
    obtain ⟨i, hi, hget⟩ := Option.bind_eq_some_iff.mp hr
    have hlt : i < all.length := (List.getElem?_eq_some_iff.mp hget).1
    have hindex : ∀ k < all.length, ∀ q, all[k]? = some q → k = q.index := by decide
    rw [code, ← hindex i hlt r hget]
    exact Word.eq_ofCount_of_toInt (Word.toIndex?_eq_some.mp hi)
  · rintro rfl
    exact ofIndex?_code r

/-- The words that select a register. -/
def Register.IsIndex (w : Word) : Prop := 0 ≤ w.toInt ∧ w.toInt ≤ 8

instance (w : Word) : Decidable (Register.IsIndex w) := inferInstanceAs (Decidable (_ ∧ _))

theorem Register.exists_ofIndex?_iff {w : Word} : (∃ r, ofIndex? w = some r) ↔ IsIndex w := by
  constructor
  · rintro ⟨r, hr⟩
    rw [ofIndex?_eq_some_iff.mp hr]
    cases r <;> decide
  · rintro ⟨hlower, hupper⟩
    have hlt : w.toInt.toNat < all.length := by
      change w.toInt.toNat < 9
      omega
    refine ⟨all[w.toInt.toNat], ?_⟩
    rw [ofIndex?, Word.toIndex?_of_nonneg hlower, Option.bind_some, List.getElem?_eq_getElem hlt]

theorem Instruction.mem_touches_of_binary {d : Instruction} {op : BinaryOp} {mode : Addressing}
    {part : Part} (hop : d.op = .binary op mode) (hmem : part ∈ d.touches) :
    part = .flags ∨ part = .register .r6 ∨ part ∈ d.firstRegister := by
  simp only [Instruction.touches, hop, List.mem_append] at hmem
  rcases hmem with (hflags | hr6) | hfirst
  · split at hflags
    · exact Or.inl (List.mem_singleton.mp hflags)
    · cases hflags
  · split at hr6
    · exact Or.inr (Or.inl (List.mem_singleton.mp hr6))
    · cases hr6
  · exact Or.inr (Or.inr hfirst)

/-- Only a transfer of control moves the pointer, in a disciplined instruction. -/
theorem Instruction.Disciplined.rip_notMem_touches {d : Instruction} (hd : d.Disciplined)
    (hop : d.op.transfers = false) : .register .rip ∉ d.touches := by
  have hfirst : d.op.writesRegister = true → .register .rip ∉ d.firstRegister := by
    intro hwrites hmem
    simp only [Instruction.firstRegister, List.mem_map, Option.mem_toList, Part.register.injEq,
      exists_eq_right] at hmem
    exact hd.2 hwrites (Register.ofIndex?_eq_some_iff.mp hmem)
  cases hcase : d.op with
  | binary op mode =>
      intro hmem
      rcases Instruction.mem_touches_of_binary hcase hmem with hflags | hr6 | hwritten
      · cases hflags
      · cases hr6
      · exact hfirst (by rw [hcase]; rfl) hwritten
  | not | load | increment | decrement | pop =>
      have hwritten := hfirst (by rw [hcase]; rfl)
      simpa [Instruction.touches, hcase] using hwritten
  | compare | label | store | push | interrupt => simp [Instruction.touches, hcase]
  | jump | call | retn | halt => rw [hcase] at hop; cases hop

theorem Op.ne_interrupt_of_transfers {op : Op} (hop : op.transfers = true) : op ≠ .interrupt := by
  rintro rfl
  cases hop

theorem stack_notMem_touches {d : Instruction} (hop : d.op.transfers = false)
    (hpush : d.op ≠ .push) (hpop : d.op ≠ .pop) : .stack ∉ d.touches := by
  have hfirst : .stack ∉ d.firstRegister := by simp [Instruction.firstRegister]
  cases hcase : d.op with
  | binary op mode =>
      intro hmem
      rcases Instruction.mem_touches_of_binary hcase hmem with hflags | hr6 | hwritten
      · cases hflags
      · cases hr6
      · exact hfirst hwritten
  | not | load | increment | decrement => simpa [Instruction.touches, hcase] using hfirst
  | compare | label | store | interrupt => simp [Instruction.touches, hcase]
  | push => exact absurd hcase hpush
  | pop => exact absurd hcase hpop
  | jump | call | retn | halt => rw [hcase] at hop; cases hop

namespace Machine

variable {σ : Type} {host : Host σ} {p : Program} {d : Instruction} {m m' : Machine} {s s' : σ}

theorem carryOut_of_perform (hop : d.op ≠ .interrupt)
    (hcarry : carryOut host d m s = .ok () (m', s')) : perform d m = .ok () m' := by
  rw [carryOut_of_ne_interrupt hop] at hcarry
  split at hcarry <;> cases hcarry
  assumption

/-- A step moves at most one word onto or off the stack. -/
theorem move_of_carryOut (hcarry : carryOut host d m s = .ok () (m', s')) :
    Stack.Move m.cpu.stack m'.cpu.stack := by
  by_cases htransfers : d.op.transfers = true
  · have hperform := carryOut_of_perform (Op.ne_interrupt_of_transfers htransfers) hcarry
    cases hop : d.op with
    | jump condition =>
        rw [perform_jump hop] at hperform
        cases hperform
        split <;> exact .keep _
    | halt =>
        rw [perform_halt hop] at hperform
        cases hperform
        exact .keep _
    | call =>
        rw [perform_call hop] at hperform
        split at hperform
        · next stack hpush => cases hperform; exact .push hpush
        · cases hperform
    | retn =>
        rw [perform_retn hop] at hperform
        split at hperform
        · next v stack hpop => cases hperform; exact .pop hpop
        · cases hperform; exact .keep _
    | _ => rw [hop] at htransfers; cases htransfers
  · by_cases hpush : d.op = .push
    · obtain ⟨v, hv⟩ := push_of_perform hpush (carryOut_of_perform (by simp [hpush]) hcarry)
      exact .push hv
    by_cases hpop : d.op = .pop
    · obtain ⟨v, hv⟩ := pop_of_perform hpop (carryOut_of_perform (by simp [hpop]) hcarry)
      exact .pop hv
    -- no other instruction touches the stack
    rw [(agreeOff_of_carryOut hcarry).stack
      (stack_notMem_touches (Bool.eq_false_iff.mpr htransfers) hpush hpop)]
    exact .keep _

end Machine

/-! ## Where control goes -/

/-- Where control goes from an instruction: `m` is the machine that stands before it, and `m'` the
machine after it. -/
inductive Transfer (d : Instruction) (m m' : Machine) : Prop
  /-- To the next instruction, with no new word on the stack. -/
  | next (hop : d.op ≠ .jump .always ∧ d.op ≠ .call ∧ d.op ≠ .retn ∧ d.op ≠ .halt)
      (hpointer : m'.cpu.pointer = Word.ofCount d.next)
      (hstack : m'.cpu.stack.entries ⊆ m.cpu.stack.entries)
  /-- By the distance that a jump states. -/
  | jump (condition : Condition) (hop : d.op = .jump condition)
      (hpointer : m'.cpu.pointer = Word.ofCount d.position + d.first + 2)
      (hstack : m'.cpu.stack = m.cpu.stack)
  /-- To the position that a call states, the call's own position being left on the stack. -/
  | call (hop : d.op = .call) (hpointer : m'.cpu.pointer = d.first + 1)
      (hstack : m.cpu.stack.push (Word.ofCount d.position) = .ok m'.cpu.stack)
  /-- Behind the call whose position is on top of the stack. -/
  | retn (v : Word) (hop : d.op = .retn) (hpointer : m'.cpu.pointer = v + 2)
      (hstack : m.cpu.stack.pop = .ok (v, m'.cpu.stack))
  /-- To the end of the program. -/
  | stop (hop : d.op = .halt ∨ d.op = .retn)
      (hpointer : m'.cpu.pointer = Word.clamp m.cpu.programSize + 1)
      (hstack : m'.cpu.stack = m.cpu.stack)

namespace Machine

variable {σ : Type} {host : Host σ} {p : Program} {d : Instruction} {m m₁ : Machine} {s s' : σ}

/-- Behind its last word an instruction ends. -/
theorem pointer_enter_add_one (m : Machine) (d : Instruction) :
    (m.enter d).cpu.pointer + 1 = Word.ofCount d.next := by
  rw [pointer_enter, ← Word.ofCount_succ]
  congr 1
  simp only [Instruction.next, Instruction.width]
  omega

/-- A distance is added to the position of the last word, but counts from the first one. -/
theorem pointer_enter_add_first_add_one (m : Machine) (hcount : d.op.operandCount = 1) :
    (m.enter d).cpu.pointer + d.first + 1 = Word.ofCount d.position + d.first + 2 := by
  rw [pointer_enter, hcount, Word.ofCount_succ_add_add_one]

theorem pointer_enter_sub_one (m : Machine) (hcount : d.op.operandCount = 1) :
    (m.enter d).cpu.pointer - 1 = Word.ofCount d.position := by
  rw [pointer_enter, hcount, Word.ofCount_succ, Int32.add_sub_cancel]

/-- Every disciplined instruction passes control on in one of the five ways. -/
theorem transfer_of_carryOut (hd : d.Disciplined)
    (hcarry : carryOut host d (m.enter d) s = .ok () (m₁, s')) : Transfer d m m₁.leave := by
  by_cases htransfers : d.op.transfers = true
  · have hperform := carryOut_of_perform (Op.ne_interrupt_of_transfers htransfers) hcarry
    cases hop : d.op with
    | jump condition =>
        rw [perform_jump hop] at hperform
        cases hperform
        have hcount : d.op.operandCount = 1 := by rw [hop]; rfl
        by_cases htaken : condition.holds (m.enter d).cpu.flags = true
        · rw [if_pos htaken]
          exact .jump condition hop (pointer_enter_add_first_add_one m hcount) rfl
        · -- a jump that is not taken goes on like any other instruction
          rw [if_neg htaken]
          refine .next ⟨?_, by simp [hop], by simp [hop], by simp [hop]⟩ ?_ (fun v hv => hv)
          · rintro halways
            rw [hop] at halways
            cases halways
            exact htaken rfl
          · exact pointer_enter_add_one m d
    | halt =>
        rw [perform_halt hop] at hperform
        cases hperform
        exact .stop (Or.inl hop) rfl rfl
    | call =>
        have hcount : d.op.operandCount = 1 := by rw [hop]; rfl
        rw [perform_call hop, pointer_enter_sub_one m hcount] at hperform
        split at hperform
        · next stack hpush => cases hperform; exact .call hop rfl hpush
        · cases hperform
    | retn =>
        rw [perform_retn hop] at hperform
        split at hperform
        · next v stack hpop =>
          cases hperform
          exact .retn v hop (Word.add_one_add_one v) hpop
        · cases hperform
          exact .stop (Or.inr hop) rfl rfl
    | _ => rw [hop] at htransfers; cases htransfers
  · -- the pointer is still on the last word of the instruction
    have hplain := Bool.eq_false_iff.mpr htransfers
    have hagree := agreeOff_of_carryOut hcarry
    refine .next ?_ ?_ ?_
    · refine ⟨?_, ?_, ?_, ?_⟩ <;> intro hop <;> rw [hop] at hplain <;> cases hplain
    · rw [pointer_leave, hagree.pointer (hd.rip_notMem_touches hplain), pointer_enter_add_one]
    · by_cases hpop : d.op = .pop
      · obtain ⟨v, hv⟩ := pop_of_perform hpop (carryOut_of_perform (by simp [hpop]) hcarry)
        rw [stack_leave, ← stack_enter m d, Stack.entries_of_pop hv]
        exact List.subset_cons_self _ _
      · rw [stack_leave, hagree.stack (stack_notMem_touches hplain hd.1 hpop)]
        exact List.Subset.refl _

end Machine

end WordMachine
