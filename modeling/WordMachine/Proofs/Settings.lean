import WordMachine.Proofs.Transfer

/-!
# Instructions and the settings

The settings of a machine say how large its parts are made, what a core dump shows and when a run is
cut off.  Instructions have no use for any of that: an action is `Unaware` of the settings if it
does the same for two machines that differ only in them.  There is one lemma for each action that
instructions are made of, and `carryOut_mapConfig` puts them together.

Only fetching looks at a setting, the step limit; see `Proofs/StepLimit.lean`.
-/

namespace WordMachine.Machine

variable {α β σ : Type}

/-- The machine with its settings replaced, and with everything else as it is. -/
def mapConfig (g : Config → Config) (m : Machine) : Machine :=
  { m with cpu := { m.cpu with config := g m.cpu.config } }

@[simp] theorem registers_mapConfig (g : Config → Config) (m : Machine) :
    (m.mapConfig g).cpu.registers = m.cpu.registers := rfl

@[simp] theorem flags_mapConfig (g : Config → Config) (m : Machine) :
    (m.mapConfig g).cpu.flags = m.cpu.flags := rfl

@[simp] theorem stack_mapConfig (g : Config → Config) (m : Machine) :
    (m.mapConfig g).cpu.stack = m.cpu.stack := rfl

@[simp] theorem memory_mapConfig (g : Config → Config) (m : Machine) :
    (m.mapConfig g).memory = m.memory := rfl

/-! ## Instructions do not -/

/-- The result of an action, with the settings of the machine replaced. -/
def mapConfigResult (g : Config → Config) :
    EStateM.Result Trap Machine α → EStateM.Result Trap Machine α
  | .ok a m => .ok a (m.mapConfig g)
  | .error t m => .error t (m.mapConfig g)

/-- An action that does not look at the settings. -/
structure Unaware (x : Action α) : Prop where
  eq : ∀ g m, x (m.mapConfig g) = mapConfigResult g (x m)

namespace Unaware

theorem pure (a : α) : Unaware (Pure.pure a : Action α) := ⟨fun _ _ => rfl⟩

theorem throw (t : Trap) : Unaware (MonadExcept.throw t : Action α) := ⟨fun _ _ => rfl⟩

theorem bind {x : Action α} {f : α → Action β} (hx : Unaware x) (hf : ∀ a, Unaware (f a)) :
    Unaware (x >>= f) where
  eq g m := by
    change EStateM.bind x f (m.mapConfig g) = mapConfigResult g (EStateM.bind x f m)
    unfold EStateM.bind
    rw [hx.eq]
    cases x m with
    | ok a m₁ => exact (hf a).eq g m₁
    | error t m₁ => rfl

/-- An action may look at the other parts of the machine. -/
theorem get_bind {f : Machine → Action β} (hsame : ∀ g m, f (m.mapConfig g) = f m)
    (hf : ∀ m, Unaware (f m)) : Unaware (MonadState.get >>= f) where
  eq g m := by
    change f (m.mapConfig g) (m.mapConfig g) = mapConfigResult g (f m m)
    rw [hsame, (hf m).eq]

/-! ### Registers, flags and the pointer -/

theorem register (index : Word) : Unaware (register index) where
  eq g m := by
    unfold Machine.register
    cases Register.ofIndex? index <;> rfl

theorem setRegister (r : Register) (v : Word) : Unaware (setRegister r v) := ⟨fun _ _ => rfl⟩

theorem assign (index v : Word) : Unaware (assign index v) where
  eq g m := by
    unfold Machine.assign
    cases Register.ofIndex? index <;> rfl

theorem modifyFlags (f : Flags → Flags) : Unaware (modifyFlags f) := ⟨fun _ _ => rfl⟩

theorem goTo (w : Word) : Unaware (goTo w) := ⟨fun _ _ => rfl⟩

theorem goBy (distance : Word) : Unaware (goBy distance) := ⟨fun _ _ => rfl⟩

theorem halt : Unaware halt := ⟨fun _ _ => rfl⟩

theorem operand (mode : Addressing) (d : Instruction) : Unaware (operand mode d) := by
  cases mode with
  | immediate => exact pure _
  | register => exact register _

/-! ### Stack and memory -/

theorem push (v : Word) : Unaware (push v) where
  eq g m := by
    unfold Machine.push
    rw [stack_mapConfig]
    cases m.cpu.stack.push v <;> rfl

theorem pop : Unaware pop where
  eq g m := by
    unfold Machine.pop
    rw [stack_mapConfig]
    cases m.cpu.stack.pop <;> rfl

theorem readMemory (address : Word) (read : Memory → UInt32 → Except BusError α) :
    Unaware (readMemory address read) where
  eq g m := by
    unfold Machine.readMemory
    rw [memory_mapConfig]
    cases read m.memory (Word.bits address) <;> rfl

theorem writeMemory (address : Word) (write : UInt32 → Memory.Update Unit) :
    Unaware (writeMemory address write) where
  eq g m := by
    simp only [Machine.writeMemory, mapConfig]
    cases write (Word.bits address) m.memory <;> rfl

theorem store (width : Width) (address v : Word) : Unaware (store width address v) := by
  cases width with
  | byte =>
      simp only [Machine.store]
      split
      · exact throw _
      · exact writeMemory ..
  | word =>
      simp only [Machine.store]
      exact writeMemory ..

theorem load (width : Width) (address : Word) : Unaware (load width address) := by
  cases width with
  | byte => exact bind (readMemory ..) fun _ => pure _
  | word => exact bind (readMemory ..) fun _ => pure _

/-! ### Instructions and services -/

theorem combine (op : BinaryOp) (d : Instruction) (v : Word) : Unaware (combine op d v) := by
  refine bind (register _) fun c => bind (modifyFlags _) fun _ => ?_
  split
  · split
    · exact bind (throw _) fun _ => bind (assign ..) fun _ => setRegister ..
    · exact bind (assign ..) fun _ => setRegister ..
  · exact assign ..

theorem stepRegister (d : Instruction) (value : Word → Word) (flag : Word → Flags → Flags) :
    Unaware (stepRegister d value flag) :=
  bind (register _) fun _ => bind (modifyFlags _) fun _ => assign ..

theorem perform (d : Instruction) : Unaware (perform d) := by
  unfold Machine.perform
  cases d.op with
  | binary op mode => exact bind (operand ..) fun v => combine ..
  | compare mode =>
      cases mode with
      | immediate => exact bind (register _) fun _ => modifyFlags _
      | register => exact bind (register _) fun _ => bind (register _) fun _ => modifyFlags _
  | not => exact bind (register _) fun _ => assign ..
  | increment | decrement => exact stepRegister ..
  | label | interrupt => exact pure _
  | jump condition =>
      refine ⟨fun g m => ?_⟩
      by_cases htaken : condition.holds m.cpu.flags = true
      · simp only [flags_mapConfig, htaken, if_true]
        exact (goBy _).eq g m
      · simp only [flags_mapConfig, htaken]
        rfl
  | store width mode =>
      cases mode with
      | immediate => exact store ..
      | register => exact bind (register _) fun _ => bind (register _) fun _ => store ..
  | load width mode =>
      exact bind (operand ..) fun _ => bind (register _) fun _ => bind (load ..) fun _ => assign ..
  | push => exact bind (register _) fun _ => push _
  | pop => exact bind (register _) fun _ => bind pop fun _ => assign ..
  | call => exact get_bind (fun _ _ => rfl) fun _ => bind (push _) fun _ => goTo _
  | retn =>
      refine get_bind (fun _ _ => rfl) fun m => ?_
      split
      · exact halt
      · exact bind pop fun _ => goTo _
  | halt => exact halt

theorem stringArgument : Unaware stringArgument :=
  get_bind (fun _ _ => rfl) fun _ => bind (readMemory ..) fun _ => pure _

theorem positionArgument (service : Service) : Unaware (positionArgument service) where
  eq g m := by
    unfold Machine.positionArgument
    rw [registers_mapConfig]
    cases Word.toIndex? m.cpu.registers.r2 <;> rfl

theorem request (service : Service) : Unaware (request service) := by
  cases service with
  | readLine | writeLine | fileSize => exact bind stringArgument fun _ => pure _
  | readFileByte => exact bind stringArgument fun _ => bind (positionArgument _) fun _ => pure _
  | writeFileByte =>
      exact bind stringArgument fun _ => bind (positionArgument _) fun _ =>
        get_bind (fun _ _ => rfl) fun _ => pure _
  | memorySize =>
      exact get_bind (fun _ _ => rfl) fun _ => bind (setRegister ..) fun _ => pure _

theorem receive (call : HostCall) (answer : Except HostError call.Answer) :
    Unaware (receive call answer) := by
  cases answer with
  | error e => exact throw _
  | ok answer =>
      cases call with
      | readLine prompt =>
          exact get_bind (fun _ _ => rfl) fun _ => bind (writeMemory ..) fun _ => setRegister ..
      | writeLine | writeFileByte => exact pure _
      | readFileByte | fileSize => exact setRegister ..

theorem execute (d : Instruction) : Unaware (execute d) := by
  unfold Machine.execute
  split
  · split
    · exact request _
    · exact throw _
  · exact bind (perform d) fun _ => pure _

end Unaware

/-- To carry an instruction out is the same with other settings. -/
theorem carryOut_mapConfig (host : Host σ) (d : Instruction) (g : Config → Config) (m : Machine)
    (s : σ) :
    carryOut host d (m.mapConfig g) s =
      match carryOut host d m s with
      | .ok () c => .ok () (c.1.mapConfig g, c.2)
      | .error t c => .error t (c.1.mapConfig g, c.2) := by
  unfold carryOut
  rw [(Unaware.execute d).eq]
  cases execute d m with
  | error t m₁ => rfl
  | ok call? m₁ =>
      cases call? with
      | none => rfl
      | some call =>
          simp only [mapConfigResult, (Unaware.receive call (host call s).1).eq]
          cases receive call (host call s).1 m₁ <;> rfl

end WordMachine.Machine
