import WordMachine.Machine.Step

/-!
# What an instruction leaves alone

An instruction changes a few parts of the machine and no others.  `Instruction.touches` lists the
parts, `AgreeOff parts m m'` says that two machines differ in no other part, and `Confined parts x`
says this of the machines before and after an action, whether it succeeds or traps.

The one fact about instructions is `Confined.execute`, together with `Confined.receive` for the
second half of a service: no part outside `touches` changes, no capacity or size ever changes, and
no trap is one of those that fetching an instruction raises.  It is put together from one lemma for
each action that instructions are made of.
-/

namespace WordMachine

/-! ## Parts of a machine -/

/-- The parts of a machine that instructions change. -/
inductive Part
  | flags | memory | stack
  | register (r : Register)
  deriving DecidableEq, Repr

/-- Machines that differ at most in the given parts.  Capacities, sizes and settings are the same
in any case. -/
structure AgreeOff (parts : List Part) (m m' : Machine) : Prop where
  flags : .flags ∉ parts → m'.cpu.flags = m.cpu.flags
  memory : .memory ∉ parts → m'.memory = m.memory
  stack : .stack ∉ parts → m'.cpu.stack = m.cpu.stack
  register : ∀ r, .register r ∉ parts → m'.cpu.registers.get r = m.cpu.registers.get r
  capacity : m'.cpu.stack.capacity = m.cpu.stack.capacity
  memorySize : m'.memory.size = m.memory.size
  announced : m'.memory.announced = m.memory.announced
  programSize : m'.cpu.programSize = m.cpu.programSize
  steps : m'.cpu.steps = m.cpu.steps
  config : m'.cpu.config = m.cpu.config

namespace AgreeOff

variable {parts parts' : List Part} {m m' m'' : Machine}

theorem refl (parts : List Part) (m : Machine) : AgreeOff parts m m :=
  ⟨fun _ => rfl, fun _ => rfl, fun _ => rfl, fun _ _ => rfl, rfl, rfl, rfl, rfl, rfl, rfl⟩

theorem trans (hfirst : AgreeOff parts m m') (hsecond : AgreeOff parts m' m'') :
    AgreeOff parts m m'' where
  flags h := (hsecond.flags h).trans (hfirst.flags h)
  memory h := (hsecond.memory h).trans (hfirst.memory h)
  stack h := (hsecond.stack h).trans (hfirst.stack h)
  register r h := (hsecond.register r h).trans (hfirst.register r h)
  capacity := hsecond.capacity.trans hfirst.capacity
  memorySize := hsecond.memorySize.trans hfirst.memorySize
  announced := hsecond.announced.trans hfirst.announced
  programSize := hsecond.programSize.trans hfirst.programSize
  steps := hsecond.steps.trans hfirst.steps
  config := hsecond.config.trans hfirst.config

/-- The instruction pointer is the register `rip`. -/
theorem pointer (hagree : AgreeOff parts m m') (hrip : .register .rip ∉ parts) :
    m'.cpu.pointer = m.cpu.pointer := hagree.register .rip hrip

theorem setRegister {r : Register} (hr : .register r ∈ parts) (m : Machine) (v : Word) :
    AgreeOff parts m { m with cpu := { m.cpu with registers := m.cpu.registers.set r v } } := by
  refine { AgreeOff.refl parts m with register := fun q hq => ?_ }
  have hne : q ≠ r := fun heq => hq (by rw [heq]; exact hr)
  exact Registers.get_set_of_ne _ hne v

theorem setStack {stack : Stack} (hstack : .stack ∈ parts) (m : Machine)
    (hcapacity : stack.capacity = m.cpu.stack.capacity) :
    AgreeOff parts m { m with cpu := { m.cpu with stack } } :=
  { AgreeOff.refl parts m with
    stack := fun h => absurd hstack h
    capacity := hcapacity }

end AgreeOff

/-- The traps that fetching an instruction raises. -/
def Trap.isOfFetch : Trap → Bool
  | .invalidInstruction _ _ | .outsideProgram _ | .stepLimit _ => true
  | _ => false

/-- An update that changes no size of the memory, whether it succeeds or fails. -/
structure Memory.KeepsSize (update : Memory.Update Unit) : Prop where
  ok : ∀ {m a m'}, update m = .ok a m' → m'.size = m.size ∧ m'.announced = m.announced
  error : ∀ {m e m'}, update m = .error e m' → m'.size = m.size ∧ m'.announced = m.announced

namespace Memory.KeepsSize

theorem writeByte (address : UInt32) (v : UInt8) : KeepsSize (writeByte address v) where
  ok h := by
    unfold Memory.writeByte at h
    split at h <;> cases h
    exact ⟨size_setByte .., announced_setByte ..⟩
  error h := by
    unfold Memory.writeByte at h
    split at h <;> cases h
    exact ⟨rfl, rfl⟩

theorem writeWord (address v : UInt32) : KeepsSize (writeWord address v) where
  ok h := by
    unfold Memory.writeWord at h
    split at h <;> cases h
    exact ⟨size_setWord .., announced_setWord ..⟩
  error h := by
    unfold Memory.writeWord at h
    split at h <;> cases h
    exact ⟨rfl, rfl⟩

theorem bind {u v : Memory.Update Unit} (hu : KeepsSize u) (hv : KeepsSize v) :
    KeepsSize (u >>= fun _ => v) where
  ok {m a m'} h := by
    change EStateM.bind u (fun _ => v) m = _ at h
    cases hrun : u m with
    | ok b m₁ =>
        simp only [EStateM.bind, hrun] at h
        obtain ⟨hsize, hannounced⟩ := hv.ok h
        exact ⟨hsize.trans (hu.ok hrun).1, hannounced.trans (hu.ok hrun).2⟩
    | error e m₁ => simp only [EStateM.bind, hrun] at h; cases h
  error {m e m'} h := by
    change EStateM.bind u (fun _ => v) m = _ at h
    cases hrun : u m with
    | ok b m₁ =>
        simp only [EStateM.bind, hrun] at h
        obtain ⟨hsize, hannounced⟩ := hv.error h
        exact ⟨hsize.trans (hu.ok hrun).1, hannounced.trans (hu.ok hrun).2⟩
    | error e' m₁ =>
        simp only [EStateM.bind, hrun] at h
        cases h
        exact hu.error hrun

theorem writeBytes (address : UInt32) (bytes : List UInt8) :
    KeepsSize (writeBytes address bytes) := by
  induction bytes generalizing address with
  | nil => exact ⟨fun h => by cases h; exact ⟨rfl, rfl⟩, fun h => by cases h⟩
  | cons v rest ih => exact bind (writeByte address v) (ih (address + 1))

end Memory.KeepsSize

namespace Machine

/-- An action that changes at most the given parts, whether it succeeds or traps, and that does not
raise a trap of fetching. -/
structure Confined (parts : List Part) (x : Action α) : Prop where
  ok : ∀ {m a m'}, x m = .ok a m' → AgreeOff parts m m'
  error : ∀ {m t m'}, x m = .error t m' → AgreeOff parts m m' ∧ t.isOfFetch = false

namespace Confined

variable {parts : List Part}

theorem pure (a : α) : Confined parts (Pure.pure a : Action α) where
  ok h := by cases h; exact .refl ..
  error h := by cases h

theorem throw {t : Trap} (ht : t.isOfFetch = false) :
    Confined parts (MonadExcept.throw t : Action α) where
  ok h := by cases h
  error h := by cases h; exact ⟨.refl .., ht⟩

theorem bind {x : Action α} {f : α → Action β} (hx : Confined parts x)
    (hf : ∀ a, Confined parts (f a)) : Confined parts (x >>= f) where
  ok {m b m'} h := by
    change EStateM.bind x f m = _ at h
    cases hrun : x m with
    | ok a m₁ =>
        simp only [EStateM.bind, hrun] at h
        exact (hx.ok hrun).trans ((hf a).ok h)
    | error t m₁ => simp only [EStateM.bind, hrun] at h; cases h
  error {m t m'} h := by
    change EStateM.bind x f m = _ at h
    cases hrun : x m with
    | ok a m₁ =>
        simp only [EStateM.bind, hrun] at h
        exact ⟨(hx.ok hrun).trans ((hf a).error h).1, ((hf a).error h).2⟩
    | error t' m₁ =>
        simp only [EStateM.bind, hrun] at h
        cases h
        exact hx.error hrun

theorem get : Confined parts (MonadState.get : Action Machine) where
  ok h := by cases h; exact .refl ..
  error h := by cases h

/-! ### Registers, flags and the pointer -/

theorem register (index : Word) : Confined parts (register index) where
  ok h := by
    unfold Machine.register at h
    split at h <;> cases h
    exact .refl ..
  error h := by
    unfold Machine.register at h
    split at h <;> cases h
    exact ⟨.refl .., rfl⟩

theorem setRegister {r : Register} (hr : .register r ∈ parts) (v : Word) :
    Confined parts (setRegister r v) where
  ok h := by cases h; exact .setRegister hr ..
  error h := by cases h

theorem assign {index : Word} (hindex : ∀ r, Register.ofIndex? index = some r → .register r ∈ parts)
    (v : Word) : Confined parts (assign index v) where
  ok h := by
    unfold Machine.assign at h
    split at h
    · next r hr => exact (setRegister (hindex r hr) v).ok h
    · cases h
  error h := by
    unfold Machine.assign at h
    split at h
    · cases h
    · cases h; exact ⟨.refl .., rfl⟩

theorem modifyFlags {f : Flags → Flags} (hflags : .flags ∈ parts ∨ ∀ old, f old = old) :
    Confined parts (modifyFlags f) where
  ok {m a m'} h := by
    cases h
    refine { AgreeOff.refl parts m with flags := fun hnot => ?_ }
    rcases hflags with hmem | hsame
    · exact absurd hmem hnot
    · exact hsame _
  error h := by cases h

theorem goTo (hrip : .register .rip ∈ parts) (w : Word) : Confined parts (goTo w) where
  ok h := by cases h; exact .setRegister hrip ..
  error h := by cases h

theorem goBy (hrip : .register .rip ∈ parts) (w : Word) : Confined parts (goBy w) where
  ok h := by cases h; exact .setRegister hrip ..
  error h := by cases h

theorem halt (hrip : .register .rip ∈ parts) : Confined parts halt where
  ok h := by cases h; exact .setRegister hrip ..
  error h := by cases h

theorem operand (mode : Addressing) (d : Instruction) : Confined parts (operand mode d) := by
  cases mode with
  | immediate => exact pure _
  | register => exact register _

/-! ### Stack and memory -/

theorem push (hstack : .stack ∈ parts) (v : Word) : Confined parts (push v) where
  ok {m a m'} h := by
    unfold Machine.push at h
    split at h
    · next stack hpush =>
      cases h
      exact .setStack hstack m (Stack.capacity_push hpush)
    · cases h
  error h := by
    unfold Machine.push at h
    split at h <;> cases h
    exact ⟨.refl .., rfl⟩

theorem pop (hstack : .stack ∈ parts) : Confined parts pop where
  ok {m a m'} h := by
    unfold Machine.pop at h
    split at h
    · next v stack hpop =>
      cases h
      exact .setStack hstack m (Stack.capacity_pop hpop)
    · cases h
  error h := by
    unfold Machine.pop at h
    split at h <;> cases h
    exact ⟨.refl .., rfl⟩

theorem readMemory (address : Word) (read : Memory → UInt32 → Except BusError α) :
    Confined parts (readMemory address read) where
  ok h := by
    unfold Machine.readMemory at h
    split at h <;> cases h
    exact .refl ..
  error h := by
    unfold Machine.readMemory at h
    split at h <;> cases h
    exact ⟨.refl .., rfl⟩

theorem writeMemory (hmemory : .memory ∈ parts) {write : UInt32 → Memory.Update Unit}
    (hwrite : ∀ a, Memory.KeepsSize (write a)) (address : Word) :
    Confined parts (writeMemory address write) where
  ok {m a m'} h := by
    simp only [Machine.writeMemory] at h
    split at h
    · next u memory hrun =>
      cases h
      obtain ⟨hsize, hannounced⟩ := (hwrite _).ok hrun
      exact { AgreeOff.refl parts m with
        memory := fun hnot => absurd hmemory hnot
        memorySize := hsize
        announced := hannounced }
    · cases h
  error {m t m'} h := by
    simp only [Machine.writeMemory] at h
    split at h
    · cases h
    · next e memory hrun =>
      cases h
      obtain ⟨hsize, hannounced⟩ := (hwrite _).error hrun
      exact ⟨{ AgreeOff.refl parts m with
        memory := fun hnot => absurd hmemory hnot
        memorySize := hsize
        announced := hannounced }, rfl⟩

theorem store (hmemory : .memory ∈ parts) (width : Width) (address v : Word) :
    Confined parts (store width address v) := by
  cases width with
  | byte =>
      simp only [Machine.store]
      split
      · exact throw rfl
      · exact writeMemory hmemory (fun a => .writeByte a _) address
  | word => exact writeMemory hmemory (fun a => .writeWord a _) address

theorem load (width : Width) (address : Word) : Confined parts (load width address) := by
  cases width with
  | byte => exact bind (readMemory ..) fun _ => pure _
  | word => exact bind (readMemory ..) fun _ => pure _

/-! ### Services -/

theorem stringArgument : Confined parts stringArgument :=
  bind get fun _ => bind (readMemory ..) fun _ => pure _

theorem positionArgument (service : Service) : Confined parts (positionArgument service) where
  ok h := by
    unfold Machine.positionArgument at h
    split at h <;> cases h
    exact .refl ..
  error h := by
    unfold Machine.positionArgument at h
    split at h <;> cases h
    exact ⟨.refl .., rfl⟩

theorem request (hr1 : .register .r1 ∈ parts) (service : Service) :
    Confined parts (request service) := by
  cases service with
  | readLine | writeLine | fileSize => exact bind stringArgument fun _ => pure _
  | readFileByte =>
      exact bind stringArgument fun _ => bind (positionArgument _) fun _ => pure _
  | writeFileByte =>
      exact bind stringArgument fun _ => bind (positionArgument _) fun _ => bind get fun _ => pure _
  | memorySize => exact bind get fun _ => bind (setRegister hr1 _) fun _ => pure _

theorem receive (hmemory : .memory ∈ parts) (hr1 : .register .r1 ∈ parts) (call : HostCall)
    (answer : Except HostError call.Answer) : Confined parts (receive call answer) := by
  cases answer with
  | error e => exact throw rfl
  | ok answer =>
      cases call with
      | readLine prompt =>
          exact bind get fun _ =>
            bind (writeMemory hmemory (fun a => .writeBytes a _) _) fun _ => setRegister hr1 _
      | writeLine | writeFileByte => exact pure _
      | readFileByte | fileSize => exact setRegister hr1 _

end Confined

end Machine

/-! ## Instructions -/

/-- Whether an operation sets flags; the others leave them as they are. -/
def BinaryOp.setsFlags : BinaryOp → Bool
  | .add | .sub | .mul | .div => true
  | _ => false

theorem BinaryOp.flags_of_not_setsFlags {op : BinaryOp} (hop : op.setsFlags = false) (old : Flags)
    (c v : Word) : op.flags old c v = old := by
  cases op with
  | add | sub | mul | div => cases hop
  | _ => rfl

/-- Whether an operation replaces the contents of the register that its first operand selects. -/
def Op.writesRegister : Op → Bool
  | .binary _ _ | .not | .increment | .decrement | .load _ _ | .pop => true
  | _ => false

namespace Instruction

/-- The register that the first operand selects, if it selects one. -/
def firstRegister (d : Instruction) : List Part :=
  (Register.ofIndex? d.first).toList.map .register

/-- The parts of the machine that an instruction may change.  A division also changes `r6`, and a
service changes `r1` and, if it reads a line, the memory. -/
def touches (d : Instruction) : List Part :=
  match d.op with
  | .binary op _ =>
    (if op.setsFlags then [.flags] else []) ++ (if op = .div then [.register .r6] else []) ++
      d.firstRegister
  | .compare _ => [.flags]
  | .not | .load _ _ => d.firstRegister
  | .increment | .decrement => .flags :: d.firstRegister
  | .label => []
  | .jump _ | .halt => [.register .rip]
  | .store _ _ => [.memory]
  | .push => [.stack]
  | .pop => .stack :: d.firstRegister
  | .call | .retn => [.stack, .register .rip]
  | .interrupt => [.memory, .register .r1]

theorem mem_firstRegister {d : Instruction} {r : Register}
    (hr : Register.ofIndex? d.first = some r) :
    .register r ∈ d.firstRegister := by
  simp [firstRegister, hr]

end Instruction

namespace Machine.Confined

variable {parts : List Part}

theorem combine {op : BinaryOp} {d : Instruction} (hflags : op.setsFlags = true → .flags ∈ parts)
    (hr6 : op = .div → .register .r6 ∈ parts)
    (hfirst : ∀ r, Register.ofIndex? d.first = some r → .register r ∈ parts) (v : Word) :
    Confined parts (combine op d v) := by
  -- the flags are set first, even if a division by zero traps afterwards
  refine bind (register _) fun c => bind (modifyFlags ?_) fun _ => ?_
  · cases hop : op.setsFlags with
    | true => exact Or.inl (hflags hop)
    | false => exact Or.inr fun old => BinaryOp.flags_of_not_setsFlags hop old c v
  · split
    · next hdiv =>
      split
      · exact bind (throw rfl) fun _ => bind (assign hfirst _) fun _ => setRegister (hr6 hdiv) _
      · exact bind (assign hfirst _) fun _ => setRegister (hr6 hdiv) _
    · exact assign hfirst _

theorem stepRegister {d : Instruction} (hflags : .flags ∈ parts)
    (hfirst : ∀ r, Register.ofIndex? d.first = some r → .register r ∈ parts) (value : Word → Word)
    (flag : Word → Flags → Flags) : Confined parts (stepRegister d value flag) :=
  bind (register _) fun _ => bind (modifyFlags (Or.inl hflags)) fun _ => assign hfirst _

/-- An instruction changes only the parts it touches. -/
theorem perform (d : Instruction) : Confined d.touches (perform d) := by
  have hfirst : ∀ r, Register.ofIndex? d.first = some r → .register r ∈ d.firstRegister :=
    fun r hr => Instruction.mem_firstRegister hr
  unfold Machine.perform Instruction.touches
  cases d.op with
  | binary op mode =>
      refine bind (operand mode d) fun v => combine (fun h => ?_) (fun h => ?_) (fun r hr => ?_) v
      · simp [h]
      · simp [h]
      · exact List.mem_append_right _ (hfirst r hr)
  | compare mode =>
      cases mode with
      | immediate => exact bind (register _) fun _ => modifyFlags (Or.inl (by simp))
      | register =>
          exact bind (register _) fun _ => bind (register _) fun _ => modifyFlags (Or.inl (by simp))
  | not => exact bind (register _) fun _ => assign hfirst _
  | increment | decrement =>
      exact stepRegister (by simp) (fun r hr => List.mem_cons_of_mem _ (hfirst r hr)) _ _
  | label | interrupt => exact pure _
  | jump condition =>
      -- only a jump that is taken moves the pointer
      constructor
      · intro m a m' h
        simp only at h
        split at h
        · exact (goBy (by simp) _).ok h
        · cases h; exact .refl ..
      · intro m t m' h
        simp only at h
        split at h
        · exact (goBy (by simp) _).error h
        · cases h
  | store width mode =>
      cases mode with
      | immediate => exact store (by simp) width _ _
      | register =>
          exact bind (register _) fun _ => bind (register _) fun _ => store (by simp) width _ _
  | load width mode =>
      exact bind (operand mode d) fun _ => bind (register _) fun _ => bind (load width _) fun _ =>
        assign hfirst _
  | push => exact bind (register _) fun _ => push (by simp) _
  | pop =>
      exact bind (register _) fun _ => bind (pop (by simp)) fun _ =>
        assign (fun r hr => List.mem_cons_of_mem _ (hfirst r hr)) _
  | call => exact bind get fun _ => bind (push (by simp) _) fun _ => goTo (by simp) _
  | retn =>
      show Confined [.stack, .register .rip] _
      -- with nothing on the stack, a return ends the program
      refine bind get fun m => ?_
      split
      · exact halt (by simp)
      · exact bind (pop (by simp)) fun _ => goTo (by simp) _
  | halt => exact halt (by simp)

/-- An instruction changes only the parts it touches, up to the point where it needs the host. -/
theorem execute (d : Instruction) : Confined d.touches (execute d) := by
  unfold Machine.execute
  split
  · next hop =>
    split
    · next service hservice =>
      exact request (by simp [Instruction.touches, hop]) service
    · exact throw rfl
  · exact bind (perform d) fun _ => pure _

end Machine.Confined

end WordMachine
