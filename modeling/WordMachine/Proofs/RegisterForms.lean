import WordMachine.Host.Scripted
import WordMachine.Proofs.Transfer

/-!
# Register forms and immediate forms

Most operations with two operands come in two forms, one that names a register and one that holds a
value.  The register form does what the immediate form does with the value of the register.  It
reads its registers before it changes anything, so it does not matter whether the register is also
the destination, the register for remainders or the pointer.

The forms do not take their operands in the same way: in an arithmetic operation and in a load the
last operand is the one that becomes a value, in a store both are, and in a comparison it is the
first one, which then stands last (`register_forms_agree`).
-/

namespace WordMachine.Machine

variable {σ : Type} {host : Host σ} {d d' : Instruction} {m : Machine} {s : σ} {i : Nat}
variable {a b : Word} {q r : Register}

/-- An operand that selects a register is read without a trap. -/
theorem register_bind {α : Type} (hr : Register.ofIndex? b = some r) (f : Word → Action α) :
    (register b >>= f) m = f (m.cpu.registers.get r) m := by
  have hread : register b m = .ok (m.cpu.registers.get r) m := by
    simp only [register, hr]
  change EStateM.bind (register b) f m = _
  rw [EStateM.bind, hread]

/-- Instructions that do the same and do not ask for the host cannot be told apart. -/
theorem carryOut_congr (hop : d.op ≠ .interrupt) (hop' : d'.op ≠ .interrupt)
    (hperform : perform d m = perform d' m) : carryOut host d m s = carryOut host d' m s := by
  rw [carryOut_of_ne_interrupt hop, carryOut_of_ne_interrupt hop', hperform]

/-! ## The forms -/

theorem carryOut_binary_register (hr : Register.ofIndex? b = some r) (op : BinaryOp) :
    carryOut host ⟨.binary op .register, i, a, b⟩ m s =
      carryOut host ⟨.binary op .immediate, i, a, m.cpu.registers.get r⟩ m s := by
  apply carryOut_congr (by simp) (by simp)
  exact register_bind hr fun v => combine op ⟨.binary op .register, i, a, b⟩ v

theorem carryOut_load_register (hr : Register.ofIndex? b = some r) (width : Width) :
    carryOut host ⟨.load width .register, i, a, b⟩ m s =
      carryOut host ⟨.load width .immediate, i, a, m.cpu.registers.get r⟩ m s := by
  apply carryOut_congr (by simp) (by simp)
  exact register_bind hr fun address => do
    let _ ← register a
    assign a (← load width address)

/-- The register that is named first is the value that a comparison is made with. -/
theorem carryOut_compare_register (hq : Register.ofIndex? a = some q) :
    carryOut host ⟨.compare .register, i, a, b⟩ m s =
      carryOut host ⟨.compare .immediate, i, b, m.cpu.registers.get q⟩ m s := by
  apply carryOut_congr (by simp) (by simp)
  exact register_bind hq fun x => do
    let y ← register b
    modifyFlags fun f => f.compare x y

theorem carryOut_store_register (hq : Register.ofIndex? a = some q)
    (hr : Register.ofIndex? b = some r) (width : Width) :
    carryOut host ⟨.store width .register, i, a, b⟩ m s =
      carryOut host ⟨.store width .immediate, i, m.cpu.registers.get q, m.cpu.registers.get r⟩
        m s := by
  apply carryOut_congr (by simp) (by simp)
  calc perform ⟨.store width .register, i, a, b⟩ m
      = (register b >>= fun v => store width (m.cpu.registers.get q) v) m :=
        register_bind hq fun address => register b >>= fun v => store width address v
    _ = store width (m.cpu.registers.get q) (m.cpu.registers.get r) m := register_bind hr _

/-- An instruction in its register form does what its immediate form does with the values of the
registers: it leaves the same machine and the same host, with the same trap if there is one.  Where
only one of the operands becomes a value, the other may be any word. -/
theorem register_forms_agree (host : Host σ) (m : Machine) (s : σ) (i : Nat) (a b : Word) :
    (Register.IsIndex b → ∃ r, Register.ofIndex? b = some r ∧
      (∀ op, carryOut host ⟨.binary op .register, i, a, b⟩ m s =
        carryOut host ⟨.binary op .immediate, i, a, m.cpu.registers.get r⟩ m s) ∧
      ∀ width, carryOut host ⟨.load width .register, i, a, b⟩ m s =
        carryOut host ⟨.load width .immediate, i, a, m.cpu.registers.get r⟩ m s) ∧
    (Register.IsIndex a → ∃ q, Register.ofIndex? a = some q ∧
      carryOut host ⟨.compare .register, i, a, b⟩ m s =
        carryOut host ⟨.compare .immediate, i, b, m.cpu.registers.get q⟩ m s) ∧
    (Register.IsIndex a → Register.IsIndex b → ∃ q r, Register.ofIndex? a = some q ∧
      Register.ofIndex? b = some r ∧
      ∀ width, carryOut host ⟨.store width .register, i, a, b⟩ m s =
        carryOut host ⟨.store width .immediate, i, m.cpu.registers.get q, m.cpu.registers.get r⟩
          m s) := by
  refine ⟨?_, ?_, ?_⟩
  · intro hb
    obtain ⟨r, hr⟩ := Register.exists_ofIndex?_iff.mpr hb
    exact ⟨r, hr, carryOut_binary_register hr, carryOut_load_register hr⟩
  · intro ha
    obtain ⟨q, hq⟩ := Register.exists_ofIndex?_iff.mpr ha
    exact ⟨q, hq, carryOut_compare_register hq⟩
  · intro ha hb
    obtain ⟨q, hq⟩ := Register.exists_ofIndex?_iff.mpr ha
    obtain ⟨r, hr⟩ := Register.exists_ofIndex?_iff.mpr hb
    exact ⟨q, r, hq, hr, carryOut_store_register hq hr⟩

/-- The register for remainders, divided by itself, keeps the remainder.  It can also be compared with
the pointer, and stored at the address that it holds. -/
theorem register_forms_agree_of_aliases :
    ∃ m : Machine, m.cpu.registers = { r6 := 7 } ∧
      carryOut ScriptedHost.answer ⟨.binary .div .register, 0, 5, 5⟩ m {} =
        .ok () (Machine.new {}, {}) ∧
      carryOut ScriptedHost.answer ⟨.compare .register, 0, 5, 8⟩ m {} =
        carryOut ScriptedHost.answer ⟨.compare .immediate, 0, 8, 7⟩ m {} ∧
      carryOut ScriptedHost.answer ⟨.store .byte .register, 0, 5, 5⟩ m {} =
        carryOut ScriptedHost.answer ⟨.store .byte .immediate, 0, 7, 7⟩ m {} := by
  refine ⟨{ Machine.new {} with cpu := { Cpu.new {} with registers := { r6 := 7 } } }, rfl,
    ?_, ?_, ?_⟩
  · obtain ⟨r, hr, hbinary, -⟩ :=
      (register_forms_agree ScriptedHost.answer _ {} 0 5 5).1 (by decide)
    obtain rfl : .r6 = r := Option.some.inj hr
    exact hbinary .div
  · obtain ⟨q, hq, hcompare⟩ :=
      (register_forms_agree ScriptedHost.answer _ {} 0 5 8).2.1 (by decide)
    obtain rfl : .r6 = q := Option.some.inj hq
    exact hcompare
  · obtain ⟨q, r, hq, hr, hstore⟩ :=
      (register_forms_agree ScriptedHost.answer _ {} 0 5 5).2.2 (by decide) (by decide)
    obtain rfl : .r6 = q := Option.some.inj hq
    obtain rfl : .r6 = r := Option.some.inj hr
    exact hstore .byte

end WordMachine.Machine
