import WordMachine.Host.Scripted
import WordMachine.Proofs.Transfer

/-!
# What a trap leaves behind

An instruction makes all its checks before it changes anything, so a trap finds the machine as it
was when the instruction was entered.  There are two exceptions.  A division clears the flags before
it looks at the divisor, and a line that does not fit into the memory has been stored up to the end
of the memory when that is found out.

* `Leaves x`: when the action `x` traps, the machine is as it was but for the flags of a division by
  zero.  Actions that only look at the machine (`Inspects`) may stand before such an action, and
  actions that never trap (`Safe`) behind it.
* `Memory.WrittenToEnd`: what the failure to write some bytes leaves in the memory.
* `LeftBehind`: all that is known of a machine after a step that traps, proved in `step_trapped`.
-/

namespace WordMachine

/-! ## Bytes that do not fit -/

/-- Of some bytes to be written from an address on, those that lie inside the memory have been
written; the last ones do not. -/
structure Memory.WrittenToEnd (m : Memory) (address : Nat) (bytes : List UInt8) (m' : Memory) :
    Prop where
  size_lt : m.size < address + bytes.length
  size_eq : m'.size = m.size
  announced_eq : m'.announced = m.announced
  byteAt : ∀ j < m.size,
    some (m'.byteAt j) = if address ≤ j then bytes[j - address]? else some (m.byteAt j)

namespace Memory

variable {m m' : Memory} {address : UInt32} {e : BusError}

/-- No address lies outside a memory of `2 ^ 32` bytes. -/
theorem size_lt_of_writeBytes {bytes : List UInt8}
    (hwrite : writeBytes address bytes m = .error e m') : m.size < 0x100000000 := by
  induction bytes generalizing address m with
  | nil => cases hwrite
  | cons v rest ih =>
      by_cases hin : address.toNat < m.size
      · rw [writeBytes_cons_of_lt v rest hin] at hwrite
        have hsize := ih hwrite
        rwa [size_setByte] at hsize
      · exact Nat.lt_of_le_of_lt (Nat.le_of_not_lt hin) address.toNat_lt

theorem writtenToEnd_of_writeBytes {bytes : List UInt8}
    (hwrite : writeBytes address bytes m = .error e m') :
    m.WrittenToEnd address.toNat bytes m' := by
  induction bytes generalizing address m with
  | nil => cases hwrite
  | cons v rest ih =>
      have hsmall := size_lt_of_writeBytes hwrite
      by_cases hin : address.toNat < m.size
      · rw [writeBytes_cons_of_lt v rest hin] at hwrite
        obtain ⟨hlt, hsize, hannounced, hbytes⟩ := ih hwrite
        -- the memory is too small for addresses to wrap around inside it
        have hnext : (address + 1).toNat = address.toNat + 1 := by
          rw [UInt32.toNat_add]
          exact Nat.mod_eq_of_lt (by simp; omega)
        rw [hnext, size_setByte] at hlt
        rw [size_setByte] at hsize hbytes
        refine ⟨by simpa [Nat.add_assoc, Nat.add_comm 1] using hlt, hsize, hannounced, ?_⟩
        intro j hj
        rw [hbytes j hj, hnext, byteAt_setByte]
        rcases Nat.lt_trichotomy j address.toNat with hbefore | rfl | hbehind
        · rw [if_neg (by omega), if_neg (by omega), if_neg (by omega)]
        · rw [if_neg (by omega), if_pos ⟨rfl, hj⟩, if_pos (Nat.le_refl _)]
          simp
        · rw [if_pos (by omega), if_pos (Nat.le_of_lt hbehind),
            show j - address.toNat = (j - (address.toNat + 1)) + 1 by omega,
            List.getElem?_cons_succ]
      · rw [writeBytes_cons_of_le v rest (Nat.le_of_not_lt hin)] at hwrite
        cases hwrite
        refine ⟨by simp; omega, rfl, rfl, fun j hj => ?_⟩
        rw [if_neg (by omega)]

end Memory

theorem Service.ofId?_eq_readLine_iff {id : Word} :
    Service.ofId? id = some .readLine ↔ id = 0 := by
  constructor
  · intro h
    obtain ⟨i, hi, hservice⟩ := Option.bind_eq_some_iff.mp h
    have hzero : ∀ i < 6, [Service.readLine, .writeLine, .readFileByte, .writeFileByte, .fileSize,
        .memorySize][i]? = some .readLine → i = 0 := by decide
    obtain rfl := hzero i (List.getElem?_eq_some_iff.mp hservice).1 hservice
    exact Word.eq_ofCount_of_toInt (Word.toIndex?_eq_some.mp hi)
  · rintro rfl
    rfl

/-! ## Actions that check before they change -/

namespace Machine

variable {α β : Type} {x : Action α} {f : α → Action β} {m m' : Machine}

/-- The machine that a trap finds, its instruction having been entered with the given machine. -/
def foundBy (t : Trap) (m : Machine) : Machine :=
  if t = .divideByZero then { m with cpu := { m.cpu with flags := {} } } else m

/-- An action that checks before it changes anything. -/
structure Leaves (x : Action α) : Prop where
  error : ∀ {m t m'}, x m = .error t m' → m' = m.foundBy t

/-- An action that looks at the machine and does not change it. -/
structure Inspects (x : Action α) : Prop where
  ok : ∀ {m a m'}, x m = .ok a m' → m' = m
  leaves : Leaves x

/-- An action that never traps. -/
def Safe (x : Action α) : Prop := ∀ m, ∃ a m', x m = .ok a m'

theorem bind_eq_error_iff {t : Trap} :
    (x >>= f) m = .error t m' ↔
      x m = .error t m' ∨ ∃ a m₁, x m = .ok a m₁ ∧ f a m₁ = .error t m' := by
  change EStateM.bind x f m = _ ↔ _
  unfold EStateM.bind
  cases x m with
  | ok a m₁ =>
      constructor
      · intro h
        exact Or.inr ⟨a, m₁, rfl, h⟩
      · rintro (h | ⟨a', m₂, hok, h⟩)
        · cases h
        · cases hok
          exact h
  | error t m₁ => simp

theorem foundBy_of_ne {t : Trap} (ht : t ≠ .divideByZero) : m.foundBy t = m := if_neg ht

theorem cpu_foundBy (m : Machine) (t : Trap) :
    (m.foundBy t).cpu =
      { m.cpu with flags := if t = .divideByZero then {} else m.cpu.flags } := by
  unfold foundBy
  split <;> rfl

@[simp] theorem memory_foundBy (m : Machine) (t : Trap) : (m.foundBy t).memory = m.memory := by
  unfold foundBy
  split <;> rfl

namespace Safe

theorem ne_error (hx : Safe x) {t : Trap} : x m ≠ .error t m' := by
  obtain ⟨a, m₁, hok⟩ := hx m
  rw [hok]
  exact fun h => by cases h

theorem leaves (hx : Safe x) : Leaves x := ⟨fun h => absurd h hx.ne_error⟩

theorem pure (a : α) : Safe (Pure.pure a : Action α) := fun m => ⟨a, m, rfl⟩

theorem get : Safe (MonadState.get : Action Machine) := fun m => ⟨m, m, rfl⟩

theorem bind (hx : Safe x) (hf : ∀ a, Safe (f a)) : Safe (x >>= f) := by
  intro m
  obtain ⟨a, m₁, hok⟩ := hx m
  obtain ⟨b, m₂, hrest⟩ := hf a m₁
  exact ⟨b, m₂, bind_eq_ok_iff.mpr ⟨a, m₁, hok, hrest⟩⟩

theorem setRegister (r : Register) (v : Word) : Safe (setRegister r v) := fun _ => ⟨(), _, rfl⟩

theorem modifyFlags (f : Flags → Flags) : Safe (modifyFlags f) := fun _ => ⟨(), _, rfl⟩

theorem goTo (w : Word) : Safe (goTo w) := fun _ => ⟨(), _, rfl⟩

theorem halt : Safe halt := fun _ => ⟨(), _, rfl⟩

theorem assign {index : Word} {r : Register} (hr : Register.ofIndex? index = some r) (v : Word) :
    Safe (assign index v) := by
  intro m
  unfold Machine.assign
  rw [hr]
  exact setRegister r v m

end Safe

namespace Inspects

theorem pure (a : α) : Inspects (Pure.pure a : Action α) where
  ok h := by cases h; rfl
  leaves := (Safe.pure a).leaves

theorem get : Inspects (MonadState.get : Action Machine) where
  ok h := by cases h; rfl
  leaves := Safe.get.leaves

theorem bind_leaves (hx : Inspects x) (hf : ∀ a, Leaves (f a)) : Leaves (x >>= f) where
  error h := by
    rcases bind_eq_error_iff.mp h with herror | ⟨a, m₁, hok, herror⟩
    · exact hx.leaves.error herror
    · rw [hx.ok hok] at herror
      exact (hf a).error herror

theorem bind (hx : Inspects x) (hf : ∀ a, Inspects (f a)) : Inspects (x >>= f) where
  ok h := by
    obtain ⟨a, m₁, hok, hrest⟩ := bind_eq_ok_iff.mp h
    exact ((hf a).ok hrest).trans (hx.ok hok)
  leaves := hx.bind_leaves fun a => (hf a).leaves

theorem register (index : Word) : Inspects (register index) where
  ok := register_eq_ok
  leaves.error h := by
    unfold Machine.register at h
    split at h <;> cases h
    rfl

theorem operand (mode : Addressing) (d : Instruction) : Inspects (operand mode d) := by
  cases mode with
  | immediate => exact pure _
  | register => exact register _

theorem readMemory (address : Word) (read : Memory → UInt32 → Except BusError α) :
    Inspects (readMemory address read) where
  ok h := by
    unfold Machine.readMemory at h
    split at h <;> cases h
    rfl
  leaves.error h := by
    unfold Machine.readMemory at h
    split at h <;> cases h
    rfl

theorem load (width : Width) (address : Word) : Inspects (load width address) := by
  cases width with
  | byte => exact bind (readMemory ..) fun _ => pure _
  | word => exact bind (readMemory ..) fun _ => pure _

theorem stringArgument : Inspects stringArgument :=
  bind get fun _ => bind (readMemory ..) fun _ => pure _

theorem positionArgument (service : Service) : Inspects (positionArgument service) where
  ok h := by
    unfold Machine.positionArgument at h
    split at h <;> cases h
    rfl
  leaves.error h := by
    unfold Machine.positionArgument at h
    split at h <;> cases h
    rfl

end Inspects

namespace Leaves

theorem bind_safe (hx : Leaves x) (hf : ∀ a, Safe (f a)) : Leaves (x >>= f) where
  error h := by
    rcases bind_eq_error_iff.mp h with herror | ⟨a, m₁, -, herror⟩
    · exact hx.error herror
    · exact absurd herror (hf a).ne_error

theorem throw {t : Trap} (ht : t ≠ .divideByZero) :
    Leaves (MonadExcept.throw t : Action α) where
  error h := by
    cases h
    exact (foundBy_of_ne ht).symm

/-- What stands behind the reading of a register may count on its index. -/
theorem register_bind {index : Word} {f : Word → Action β}
    (hf : ∀ r c, Register.ofIndex? index = some r → Leaves (f c)) :
    Leaves (register index >>= f) where
  error h := by
    rcases bind_eq_error_iff.mp h with herror | ⟨c, m₁, hok, herror⟩
    · exact (Inspects.register index).leaves.error herror
    · obtain ⟨rfl, r, hr, -⟩ := register_eq_ok_iff.mp hok
      exact (hf r c hr).error herror

theorem push (v : Word) : Leaves (push v) where
  error h := by
    unfold Machine.push at h
    split at h <;> cases h
    rfl

theorem pop : Leaves pop where
  error h := by
    unfold Machine.pop at h
    split at h <;> cases h
    rfl

/-- A write that fails as a whole leaves the memory as it was. -/
theorem writeMemory {write : UInt32 → Memory.Update Unit} (address : Word)
    (hwrite : ∀ {a m e m'}, write a m = .error e m' → m' = m) :
    Leaves (writeMemory address write) where
  error h := by
    simp only [Machine.writeMemory] at h
    split at h
    · cases h
    · next hfail =>
      cases h
      rw [hwrite hfail]
      rfl

theorem store (width : Width) (address v : Word) : Leaves (store width address v) := by
  cases width with
  | byte =>
      simp only [Machine.store]
      split
      · exact throw (by simp)
      · refine writeMemory address fun {a m e m'} h => ?_
        unfold Memory.writeByte at h
        split at h <;> cases h
        rfl
  | word =>
      simp only [Machine.store]
      refine writeMemory address fun {a m e m'} h => ?_
      unfold Memory.writeWord at h
      split at h <;> cases h
      rfl

/-- A division clears the flags before it traps for its divisor; all other traps come before. -/
theorem combine (op : BinaryOp) (d : Instruction) (v : Word) : Leaves (combine op d v) := by
  refine register_bind fun r c hr => ?_
  split
  · next hdiv =>
    split
    · refine ⟨fun {m t m'} h => ?_⟩
      rcases bind_eq_error_iff.mp h with hflags | ⟨a, m₁, hflags, hthrow⟩
      · cases hflags
      · cases hflags
        cases hthrow
        rw [hdiv]
        rfl
    · exact (Safe.bind (.modifyFlags _) fun _ => Safe.bind (.assign hr _) fun _ =>
        .setRegister _ _).leaves
  · exact (Safe.bind (.modifyFlags _) fun _ => .assign hr _).leaves

theorem stepRegister (d : Instruction) (value : Word → Word) (flag : Word → Flags → Flags) :
    Leaves (stepRegister d value flag) :=
  register_bind fun _ _ hr => (Safe.bind (.modifyFlags _) fun _ => .assign hr _).leaves

/-- An instruction that needs no host checks before it changes anything. -/
theorem perform (d : Instruction) : Leaves (perform d) := by
  unfold Machine.perform
  cases d.op with
  | binary op mode => exact (Inspects.operand mode d).bind_leaves fun v => combine op d v
  | compare mode =>
      cases mode with
      | immediate => exact (Inspects.register _).bind_leaves fun _ => (Safe.modifyFlags _).leaves
      | register =>
          exact (Inspects.register _).bind_leaves fun _ =>
            (Inspects.register _).bind_leaves fun _ => (Safe.modifyFlags _).leaves
  | not => exact register_bind fun _ _ hr => (Safe.assign hr _).leaves
  | increment | decrement => exact stepRegister d _ _
  | label | interrupt => exact (Safe.pure _).leaves
  | jump condition =>
      refine ⟨fun {m t m'} h => ?_⟩
      simp only at h
      split at h <;> cases h
  | store width mode =>
      cases mode with
      | immediate => exact store width _ _
      | register =>
          exact (Inspects.register _).bind_leaves fun _ =>
            (Inspects.register _).bind_leaves fun _ => store width _ _
  | load width mode =>
      -- the destination is known to exist before the memory is read
      exact (Inspects.operand mode d).bind_leaves fun _ => register_bind fun _ _ hr =>
        (Inspects.load width _).bind_leaves fun _ => (Safe.assign hr _).leaves
  | push => exact (Inspects.register _).bind_leaves fun _ => Leaves.push _
  | pop => exact register_bind fun _ _ hr => Leaves.pop.bind_safe fun _ => .assign hr _
  | call => exact Inspects.get.bind_leaves fun _ => (Leaves.push _).bind_safe fun _ => .goTo _
  | retn =>
      refine Inspects.get.bind_leaves fun _ => ?_
      split
      · exact Safe.halt.leaves
      · exact Leaves.pop.bind_safe fun _ => .goTo _
  | halt => exact Safe.halt.leaves

theorem request (service : Service) : Leaves (request service) := by
  cases service with
  | readLine | writeLine | fileSize =>
      exact (Inspects.stringArgument.bind fun _ => .pure _).leaves
  | readFileByte =>
      exact (Inspects.stringArgument.bind fun _ => (Inspects.positionArgument _).bind fun _ =>
        .pure _).leaves
  | writeFileByte =>
      exact (Inspects.stringArgument.bind fun _ => (Inspects.positionArgument _).bind fun _ =>
        Inspects.get.bind fun _ => .pure _).leaves
  | memorySize =>
      exact (Safe.get.bind fun _ => (Safe.setRegister _ _).bind fun _ => .pure _).leaves

/-- Only the storing of a line can fail when some of it has been done. -/
theorem receive {call : HostCall} (hcall : call.service ≠ .readLine)
    (answer : Except HostError call.Answer) : Leaves (receive call answer) := by
  cases answer with
  | error e => exact throw (by simp)
  | ok answer =>
      cases call with
      | readLine prompt => exact absurd rfl hcall
      | writeLine | writeFileByte => exact (Safe.pure _).leaves
      | readFileByte | fileSize => exact (Safe.setRegister _ _).leaves

end Leaves

/-! ## Services -/

variable {σ : Type} {host : Host σ} {p : Program} {d : Instruction} {s s' : σ} {t : Trap}

theorem stringArgument_eq :
    stringArgument m =
      match m.memory.readString (Word.bits m.cpu.registers.r1) with
      | .ok text => .ok (Text.Utf8.decodeLossy text) m
      | .error e => .error (.bus m.cpu.registers.r1 e) m := by
  change EStateM.bind (readMemory m.cpu.registers.r1 Memory.readString) (fun _ => pure _) m = _
  unfold EStateM.bind readMemory
  cases m.memory.readString (Word.bits m.cpu.registers.r1) <;> rfl

theorem request_readLine :
    request .readLine m =
      match m.memory.readString (Word.bits m.cpu.registers.r1) with
      | .ok prompt => .ok (some (.readLine (Text.Utf8.decodeLossy prompt))) m
      | .error e => .error (.bus m.cpu.registers.r1 e) m := by
  change EStateM.bind stringArgument (fun _ => pure _) m = _
  unfold EStateM.bind
  rw [stringArgument_eq]
  cases m.memory.readString (Word.bits m.cpu.registers.r1) <;> rfl

/-- A request that needs the host has only looked at the machine. -/
theorem request_eq_ok_some {service : Service} {call : HostCall}
    (hrequest : request service m = .ok (some call) m') : call.service = service ∧ m' = m := by
  cases service with
  | readLine | writeLine | fileSize =>
      obtain ⟨text, m₁, hargument, hreturn⟩ := bind_eq_ok_iff.mp hrequest
      cases hreturn
      exact ⟨rfl, Inspects.stringArgument.ok hargument⟩
  | readFileByte =>
      obtain ⟨path, m₁, hargument, hrest⟩ := bind_eq_ok_iff.mp hrequest
      obtain ⟨position, m₂, hposition, hreturn⟩ := bind_eq_ok_iff.mp hrest
      cases hreturn
      rw [(Inspects.positionArgument _).ok hposition]
      exact ⟨rfl, Inspects.stringArgument.ok hargument⟩
  | writeFileByte =>
      obtain ⟨path, m₁, hargument, hrest⟩ := bind_eq_ok_iff.mp hrequest
      obtain ⟨position, m₂, hposition, hget⟩ := bind_eq_ok_iff.mp hrest
      cases hget
      rw [(Inspects.positionArgument _).ok hposition]
      exact ⟨rfl, Inspects.stringArgument.ok hargument⟩
  | memorySize => cases hrequest

theorem storeLine_eq_error {line : String} (hstore : storeLine line m = .error t m') :
    m'.cpu = m.cpu ∧ t ≠ .divideByZero ∧
      m.memory.WrittenToEnd (Word.bits m.cpu.registers.r2).toNat (Text.Utf8.encode line ++ [0])
        m'.memory := by
  rcases bind_eq_error_iff.mp hstore with hget | ⟨m₀, m₁, hget, hrest⟩
  · cases hget
  cases hget
  rcases bind_eq_error_iff.mp hrest with hwrite | ⟨a, m₂, -, hset⟩
  · simp only [Machine.writeMemory] at hwrite
    split at hwrite
    · cases hwrite
    · next hfail =>
      cases hwrite
      exact ⟨rfl, by simp, Memory.writtenToEnd_of_writeBytes hfail⟩
  · cases hset

/-- The instruction asks for a line, its prompt can be read, and the host answers with the line. -/
def ObtainsLine (host : Host σ) (d : Instruction) (m : Machine) (s : σ) (line : String) : Prop :=
  d.op = .interrupt ∧ d.first = 0 ∧
    ∃ prompt, m.memory.readString (Word.bits m.cpu.registers.r1) = .ok prompt ∧
      (host (.readLine (Text.Utf8.decodeLossy prompt)) s).1 = .ok line

theorem ObtainsLine.unique {line line' : String} (hline : ObtainsLine host d m s line)
    (hline' : ObtainsLine host d m s line') : line' = line := by
  obtain ⟨-, -, prompt, hprompt, hanswer⟩ := hline
  obtain ⟨-, -, prompt', hprompt', hanswer'⟩ := hline'
  rw [hprompt] at hprompt'
  cases hprompt'
  rw [hanswer] at hanswer'
  exact (Except.ok.inj hanswer').symm

/-- An instruction that does not ask for a line checks before it changes anything, and so does its
host. -/
theorem eq_foundBy_of_carryOut {c : Machine × σ} (hread : ¬(d.op = .interrupt ∧ d.first = 0))
    (hcarry : carryOut host d m s = .error t c) : c.1 = m.foundBy t := by
  by_cases hop : d.op = .interrupt
  · have hfirst : d.first ≠ 0 := fun hfirst => hread ⟨hop, hfirst⟩
    simp only [carryOut, execute, hop] at hcarry
    cases hservice : Service.ofId? d.first with
    | none =>
        rw [hservice] at hcarry
        cases hcarry
        rfl
    | some service =>
        rw [hservice] at hcarry
        simp only at hcarry
        split at hcarry
        · next hrequest =>
          cases hcarry
          exact (Leaves.request service).error hrequest
        · cases hcarry
        · next call m₁ hrequest =>
          obtain ⟨hcall, rfl⟩ := request_eq_ok_some hrequest
          have hne : call.service ≠ .readLine := by
            rw [hcall]
            rintro rfl
            exact hfirst (Service.ofId?_eq_readLine_iff.mp hservice)
          split at hcarry
          · next hreceive =>
            cases hcarry
            exact (Leaves.receive hne _).error hreceive
          · cases hcarry
  · rw [carryOut_of_ne_interrupt hop] at hcarry
    split at hcarry
    · next hperform =>
      cases hcarry
      exact (Leaves.perform d).error hperform
    · cases hcarry

/-- A trap finds the processor as it was but for the flags of a division by zero, and the memory as
it was unless a line is stored. -/
theorem carryOut_eq_error {c : Machine × σ} (hcarry : carryOut host d m s = .error t c) :
    c.1.cpu = (m.foundBy t).cpu ∧
      ((∀ line, ¬ObtainsLine host d m s line) → c.1.memory = m.memory) ∧
      ∀ line, ObtainsLine host d m s line →
        m.memory.WrittenToEnd (Word.bits m.cpu.registers.r2).toNat (Text.Utf8.encode line ++ [0])
          c.1.memory := by
  by_cases hread : d.op = .interrupt ∧ d.first = 0
  · obtain ⟨hop, hfirst⟩ := hread
    have hexecute : execute d m = request .readLine m := by
      simp only [execute, hop, Service.ofId?_eq_readLine_iff.mpr hfirst]
    unfold carryOut at hcarry
    rw [hexecute, request_readLine] at hcarry
    cases hprompt : m.memory.readString (Word.bits m.cpu.registers.r1) with
    | error e =>
        rw [hprompt] at hcarry
        cases hcarry
        refine ⟨rfl, fun _ => rfl, ?_⟩
        rintro line ⟨-, -, prompt, hread, -⟩
        rw [hprompt] at hread
        cases hread
    | ok prompt =>
        rw [hprompt] at hcarry
        cases hanswer : (host (.readLine (Text.Utf8.decodeLossy prompt)) s).1 with
        | error e =>
            simp only [hanswer] at hcarry
            cases hcarry
            refine ⟨rfl, fun _ => rfl, ?_⟩
            rintro line ⟨-, -, prompt', hread, hline⟩
            rw [hprompt] at hread
            cases hread
            rw [hanswer] at hline
            cases hline
        | ok line =>
            simp only [hanswer] at hcarry
            split at hcarry
            · next hstore =>
              cases hcarry
              have hline : ObtainsLine host d m s line := ⟨hop, hfirst, prompt, hprompt, hanswer⟩
              obtain ⟨hcpu, hne, hwritten⟩ := storeLine_eq_error hstore
              refine ⟨by rw [hcpu, foundBy_of_ne hne], fun hnone => absurd hline (hnone line), ?_⟩
              intro line' hline'
              rw [hline.unique hline']
              exact hwritten
            · cases hcarry
  · rw [eq_foundBy_of_carryOut hread hcarry]
    exact ⟨rfl, fun _ => memory_foundBy m t, fun _ hline => absurd ⟨hline.1, hline.2.1⟩ hread⟩

/-! ## Steps that trap -/

/-- The instruction at the pointer asks for a line and obtains the given one. -/
def FetchesLine (host : Host σ) (p : Program) (m : Machine) (s : σ) (line : String) : Prop :=
  ∃ d, fetch p m = .ok d ∧ ObtainsLine host d m s line

/-- A machine `m'` that a step from `m` leaves behind when it is trapped by `t`. -/
structure LeftBehind (host : Host σ) (p : Program) (m : Machine) (s : σ) (t : Trap)
    (m' : Machine) : Prop where
  registers : ∀ r, r ≠ .rip → m'.cpu.registers.get r = m.cpu.registers.get r
  stack : m'.cpu.stack = m.cpu.stack
  programSize : m'.cpu.programSize = m.cpu.programSize
  config : m'.cpu.config = m.cpu.config
  flags : m'.cpu.flags = if t = .divideByZero then {} else m.cpu.flags
  /-- Without a line to be stored the memory is as it was. -/
  memory : (∀ line, ¬FetchesLine host p m s line) → m'.memory = m.memory
  /-- A line has been stored up to the end of the memory. -/
  line : ∀ line, FetchesLine host p m s line →
    m.memory.WrittenToEnd (Word.bits m.cpu.registers.r2).toNat (Text.Utf8.encode line ++ [0])
      m'.memory
  /-- A trap of fetching finds the machine before it has entered an instruction. -/
  fetch : t.isOfFetch = true → m'.cpu.pointer = m.cpu.pointer ∧ m'.cpu.steps = m.cpu.steps
  /-- Any other trap finds it on the last word of the instruction, which is counted. -/
  enter : t.isOfFetch = false →
    ∃ d, decode? p.words d.position = some d ∧ m.cpu.pointer.toInt = d.position ∧
      m'.cpu.pointer.toInt = d.position + d.op.operandCount ∧ m'.cpu.steps = m.cpu.steps + 1

theorem isOfFetch_of_fetch (hfetch : Machine.fetch p m = .error t) : t.isOfFetch = true := by
  unfold Machine.fetch at hfetch
  split at hfetch
  · cases hfetch
    rfl
  · split at hfetch
    · cases hfetch
      rfl
    · cases hfetch
      rfl
    · split at hfetch
      · cases hfetch
      · cases hfetch
        unfold undecodable
        split <;> rfl

theorem leftBehind_self (hfetch : Machine.fetch p m = .error t) :
    LeftBehind host p m s t m where
  registers _ _ := rfl
  stack := rfl
  programSize := rfl
  config := rfl
  flags := by
    rw [if_neg]
    rintro rfl
    cases isOfFetch_of_fetch hfetch
  memory _ := rfl
  line line hline := by
    obtain ⟨d, hd, -⟩ := hline
    rw [hfetch] at hd
    cases hd
  fetch _ := ⟨rfl, rfl⟩
  enter h := by
    rw [isOfFetch_of_fetch hfetch] at h
    cases h

theorem leftBehind_of_carryOut {c : Machine × σ} (hsmall : p.size < 0x80000000)
    (hfetch : Machine.fetch p m = .ok d) (hcarry : carryOut host d (m.enter d) s = .error t c) :
    LeftBehind host p m s t c.1 := by
  obtain ⟨hcpu, hmemory, hline⟩ := carryOut_eq_error hcarry
  rw [cpu_foundBy] at hcpu
  have hown := (agreeOff_of_carryOut_error hcarry).2
  obtain ⟨hpointer, hdecode⟩ := decode?_of_fetch hfetch
  have hend := next_le_size_of_decode? hdecode
  rw [← d.add_operandCount_eq_next] at hend
  unfold Program.size at hsmall
  refine
    { registers := ?_, stack := by rw [hcpu]; rfl, programSize := by rw [hcpu]; rfl
      config := by rw [hcpu]; rfl, flags := by rw [hcpu]; rfl
      memory := fun hnone => hmemory fun line h => hnone line ⟨d, hfetch, h⟩
      line := ?_, fetch := fun h => ?_
      enter := fun _ => ⟨d, hdecode, hpointer, ?_, by rw [hcpu]; rfl⟩ }
  · intro r hr
    rw [hcpu]
    cases r <;> first | rfl | exact absurd rfl hr
  · rintro line ⟨d', hfetch', h⟩
    rw [hfetch] at hfetch'
    cases hfetch'
    exact hline line h
  · rw [hown] at h
    cases h
  · rw [hcpu]
    change (m.enter d).cpu.pointer.toInt = _
    rw [pointer_enter, Word.toInt_ofCount (by omega), Int.natCast_add]

/-- What a step that traps leaves behind, for any program, host and machine. -/
theorem step_trapped (hsmall : p.size < 0x80000000)
    (hstep : step host p m s = ((m', s'), some t)) : LeftBehind host p m s t m' := by
  rcases step_eq_some_iff.mp hstep with ⟨hfetch, hstate⟩ | ⟨d, hfetch, hcarry⟩
  · cases hstate
    exact leftBehind_self hfetch
  · exact leftBehind_of_carryOut hsmall hfetch hcarry

/-- Of a line of three bytes, two fit into the memory. -/
theorem step_trapped_of_line :
    ∃ m' : Machine,
      step ScriptedHost.answer ⟨#[80, 0]⟩
          { cpu := { Cpu.new {} with registers := { r2 := 2 } }, memory := Memory.zeros 4 }
          { input := ["abc"] } =
        ((m', { prompts := [""] }), some (.bus 2 (.outside 4 1 4))) ∧
      (Memory.zeros 4).WrittenToEnd 2 [97, 98, 99, 0] m'.memory ∧
      m'.cpu.pointer.toInt = 1 ∧ m'.cpu.steps = 1 := by
  have hstep : ∃ m', step ScriptedHost.answer ⟨#[80, 0]⟩
      { cpu := { Cpu.new {} with registers := { r2 := 2 } }, memory := Memory.zeros 4 }
      { input := ["abc"] } = ((m', { prompts := [""] }), some (.bus 2 (.outside 4 1 4))) :=
    ⟨_, by with_unfolding_all rfl⟩
  obtain ⟨m', hstep⟩ := hstep
  have hleft := step_trapped (by decide) hstep
  obtain ⟨d, hdecode, hpointer, hlast, hsteps⟩ := hleft.enter rfl
  have hposition : 0 = d.position := Int.natCast_inj.mp hpointer
  rw [← hposition] at hdecode hlast
  obtain rfl : { op := .interrupt, position := 0 } = d := Option.some.inj hdecode
  refine ⟨m', hstep, hleft.line "abc" ?_, hlast, hsteps⟩
  refine ⟨{ op := .interrupt, position := 0 }, by rfl, rfl, rfl, [], ?_, ?_⟩
  · with_unfolding_all rfl
  · with_unfolding_all rfl

end Machine

end WordMachine
