import WordMachine.Label.Resolve
import WordMachine.Machine.Run
import WordMachine.Proofs.Calls
import WordMachine.Proofs.Layout

/-!
# Code that only stores

Code that does nothing but store immediate values holds no labels and no references to them, so
there is nothing to resolve in it (`resolve_code`).  It runs from its first word to its end, one
step for each store, and all that it changes is the memory, the pointer and the count of the steps
(`advance_of_stores`).
-/

namespace WordMachine

/-- A store of an immediate value at an immediate address. -/
structure Store where
  width : Width
  address : Word
  value : Word
  deriving DecidableEq, Repr

namespace Store

/-- The instruction for a store, which is to be placed by `layOut`. -/
def instruction (w : Store) : Instruction :=
  { op := .store w.width .immediate, position := 0, first := w.address, second := w.value }

def words (w : Store) : List Word := w.instruction.words

/-- The memory after a store. -/
def apply (m : Memory) (w : Store) : Memory :=
  match w.width with
  | .byte => m.setByte (Word.bits w.address).toNat (Word.bits w.value).toUInt8
  | .word => m.setWord (Word.bits w.address).toNat (Word.bits w.value)

/-- Whether a store can be made in a memory of the given size. -/
def Fits (size : Nat) (w : Store) : Prop :=
  match w.width with
  | .byte => w.value.toInt ≤ 127 ∧ (Word.bits w.address).toNat + 1 ≤ size
  | .word => (Word.bits w.address).toNat + 4 ≤ size

/-- The code that makes some stores. -/
def code (ws : List Store) : List Word := ws.flatMap words

/-- The program that makes some stores. -/
def program (ws : List Store) : Program := ⟨(code ws).toArray⟩

theorem operandCount_instruction (w : Store) : w.instruction.op.operandCount = 2 := by
  obtain ⟨width, address, value⟩ := w
  cases width <;> rfl

@[simp] theorem width_instruction (w : Store) : w.instruction.width = 3 := by
  rw [Instruction.width, operandCount_instruction]

theorem normal_instruction (w : Store) : w.instruction.Normal := by
  constructor <;> intro h <;> simp [operandCount_instruction] at h

@[simp] theorem size_apply (m : Memory) (w : Store) : (w.apply m).size = m.size := by
  unfold apply
  split <;> simp

@[simp] theorem announced_apply (m : Memory) (w : Store) :
    (w.apply m).announced = m.announced := by
  unfold apply
  split <;> rfl

@[simp] theorem size_foldl_apply (m : Memory) (ws : List Store) :
    (ws.foldl apply m).size = m.size := by
  induction ws generalizing m with
  | nil => rfl
  | cons w ws ih => rw [List.foldl_cons, ih, size_apply]

@[simp] theorem announced_foldl_apply (m : Memory) (ws : List Store) :
    (ws.foldl apply m).announced = m.announced := by
  induction ws generalizing m with
  | nil => rfl
  | cons w ws ih => rw [List.foldl_cons, ih, announced_apply]

end Store

/-! ## Nothing to resolve -/

namespace Label

variable {words : Array Word} {starts : List Nat}

theorem collect_of_no_markers (hnone : ∀ i ∈ starts, markerAt? words i = none) (known : Targets) :
    collect words known starts = .ok known := by
  induction starts with
  | nil => rfl
  | cons i starts ih =>
      rw [collect, hnone i (List.mem_cons_self ..)]
      exact ih fun j hj => hnone j (List.mem_cons_of_mem _ hj)

theorem patch_of_no_references (hnone : ∀ i ∈ starts, referenceAt? words i = none)
    (known : Targets) (out : Array Word) : patch words known out starts = .ok out := by
  induction starts with
  | nil => rfl
  | cons i starts ih =>
      rw [patch, hnone i (List.mem_cons_self ..)]
      exact ih fun j hj => hnone j (List.mem_cons_of_mem _ hj)

/-- Code without labels and without references to them is resolved as it is. -/
theorem resolve_of_reads {code : List Instruction} (hreads : Reads words 0 code)
    (hcode : ∀ d ∈ code, d.op ≠ .label ∧ d.op.refersToLabel = false) :
    resolve words = .ok ⟨words⟩ := by
  have hnone : ∀ i ∈ code.map Instruction.position,
      markerAt? words i = none ∧ referenceAt? words i = none := by
    intro i hi
    obtain ⟨d, hd, rfl⟩ := List.mem_map.mp hi
    have hopcode := getElem?_of_decode?_opcode (hreads.decode?_of_mem hd)
    simp [markerAt?, referenceAt?, operandIf?, hopcode, hcode d hd]
  rw [resolve, walk, walkFrom_of_reads hreads]
  simp only [collect_of_no_markers fun i hi => (hnone i hi).1,
    patch_of_no_references fun i hi => (hnone i hi).2]
  rfl

end Label

namespace Store

/-- The code of some stores reads as their instructions. -/
theorem reads_code (ws : List Store) :
    Reads (code ws).toArray 0 (layOut 0 (ws.map instruction)) := by
  have hnormal : ∀ d ∈ ws.map instruction, d.Normal := by
    intro d hd
    obtain ⟨w, -, rfl⟩ := List.mem_map.mp hd
    exact w.normal_instruction
  have hreads := reads_layOut hnormal []
  rwa [List.flatMap_map] at hreads

theorem size_program (ws : List Store) : (program ws).size = 3 * ws.length := by
  induction ws with
  | nil => rfl
  | cons w ws ih =>
      have hwords : w.words.length = 3 := by simp [words, Instruction.length_words]
      simp only [Program.size, program, List.size_toArray, code] at ih ⊢
      rw [List.flatMap_cons, List.length_append, ih, hwords, List.length_cons]
      omega

theorem resolve_code (ws : List Store) :
    Label.resolve (code ws).toArray = .ok (program ws) := by
  refine Label.resolve_of_reads (reads_code ws) fun d hd => ?_
  obtain ⟨e, he, hop⟩ := exists_op_eq_of_mem_layOut hd
  obtain ⟨w, -, rfl⟩ := List.mem_map.mp he
  rw [hop]
  obtain ⟨width, address, value⟩ := w
  cases width <;> exact ⟨Op.noConfusion, rfl⟩

end Store

/-! ## Running -/

variable {σ : Type} {host : Host σ} {p : Program} {m : Machine} {s : σ}

theorem Machine.writeMemory_of_ok {address : Word} {write : UInt32 → Memory.Update Unit}
    {memory : Memory} (hwrite : write (Word.bits address) m.memory = .ok () memory) :
    writeMemory address write m = .ok () { m with memory } := by
  simp only [writeMemory, hwrite]

namespace Store

variable {w : Store} {i : Nat}

theorem store_of_fits (hfits : w.Fits m.memory.size) :
    Machine.store w.width w.address w.value m = .ok () { m with memory := w.apply m.memory } := by
  obtain ⟨width, address, value⟩ := w
  cases width with
  | byte =>
      obtain ⟨hvalue, haddress⟩ : value.toInt ≤ 127 ∧ _ := hfits
      rw [Machine.store, if_neg (Int.not_lt.mpr hvalue)]
      exact Machine.writeMemory_of_ok (Memory.writeByte_of_holds _ haddress)
  | word =>
      have haddress : (Word.bits address).toNat + 4 ≤ m.memory.size := hfits
      rw [Machine.store]
      exact Machine.writeMemory_of_ok (Memory.writeWord_of_holds _ haddress)

/-- The machine after some stores whose code ends at the given position. -/
def finish (ws : List Store) (stop : Nat) (m : Machine) : Machine :=
  { cpu := { m.cpu.goTo (Word.ofCount stop) with steps := m.cpu.steps + ws.length }
    memory := ws.foldl apply m.memory }

theorem step_instruction (hfetch : Machine.fetch p m = .ok { w.instruction with position := i })
    (hfits : w.Fits m.memory.size) :
    Machine.step host p m s = ((finish [w] (i + w.instruction.width) m, s), none) := by
  have hperform := store_of_fits (m := m.enter { w.instruction with position := i }) hfits
  have hpointer := m.pointer_enter_add_one { w.instruction with position := i }
  rw [Machine.step_of_perform hfetch (by simp [instruction]) hperform, Machine.leave]
  simp only [hpointer]
  rfl

theorem finish_finish (ws ws' : List Store) (stop stop' : Nat) (m : Machine) :
    finish ws' stop' (finish ws stop m) = finish (ws ++ ws') stop' m := by
  simp only [finish, List.foldl_append, List.length_append, Nat.add_assoc]
  rfl

theorem isRunning_of_pointer (hpointer : m.cpu.pointer = Word.ofCount i)
    (hsize : m.cpu.programSize = p.size) (hsmall : i < 0x80000000) :
    m.cpu.isRunning = decide (i < p.size) := by
  rw [Cpu.isRunning, hpointer, hsize, Word.toInt_ofCount hsmall]
  exact decide_eq_decide.mpr Int.ofNat_lt

/-- Code of stores runs on, as long as each of them begins where the pointer can be. -/
theorem advance_of_stores (host : Host σ) (s : σ) {ws rest : List Store}
    (hreads : Reads p.words i (layOut i ((ws ++ rest).map instruction)))
    (hsmall : i + 3 * ws.length < 0x80000003) (hpointer : m.cpu.pointer = Word.ofCount i)
    (hsize : m.cpu.programSize = p.size) (hlimit : m.cpu.config.maxSteps = none)
    (hfits : ∀ w ∈ ws, w.Fits m.memory.size) (n : Nat) :
    Machine.advance host p (ws.length + n) m s =
      Machine.advance host p n (finish ws (i + 3 * ws.length) m) s := by
  induction ws generalizing i m with
  | nil =>
      have hsame : finish [] i m = m := by
        rw [finish, ← hpointer]
        rfl
      rw [List.length_nil, Nat.zero_add, Nat.mul_zero, Nat.add_zero, hsame]
  | cons w ws ih =>
      rw [List.length_cons] at hsmall ⊢
      cases hreads with
      | step hdecode hrest =>
          have hlt : i < p.size := position_lt_size_of_decode? hdecode
          have hrunning := isRunning_of_pointer hpointer hsize (by omega)
          rw [decide_eq_true hlt] at hrunning
          have hfetch := Machine.fetch_of_decode? hpointer (by omega) hdecode
          rw [show m.cpu.reachedLimit? = none by rw [Cpu.reachedLimit?, hlimit]; rfl] at hfetch
          have hnext : i + 3 * (ws.length + 1) = i + w.instruction.width + 3 * ws.length := by
            rw [width_instruction]
            omega
          rw [hnext] at hsmall ⊢
          rw [Nat.add_right_comm, Machine.advance_succ, if_pos hrunning,
            step_instruction hfetch (hfits w (List.mem_cons_self ..))]
          have hrest : Machine.advance host p (ws.length + n)
              (finish [w] (i + w.instruction.width) m) s = _ :=
            ih hrest hsmall rfl hsize hlimit fun v hv => by
              change v.Fits (w.apply m.memory).size
              rw [size_apply]
              exact hfits v (List.mem_cons_of_mem _ hv)
          simp only [hrest, finish_finish]
          rfl

theorem advance_program (host : Host σ) (s : σ) {ws : List Store} (rest : List Store)
    (hsmall : ws.length < 0x2aaaaaac) (hlimit : m.cpu.config.maxSteps = none)
    (hfits : ∀ w ∈ ws, w.Fits m.memory.size) (n : Nat) :
    Machine.advance host (program (ws ++ rest)) (ws.length + n) (m.start (program (ws ++ rest))) s =
      Machine.advance host (program (ws ++ rest)) n
        (finish ws (3 * ws.length) (m.start (program (ws ++ rest)))) s := by
  have hfits' : ∀ w ∈ ws, w.Fits (m.start (program (ws ++ rest))).memory.size := by
    intro w hw
    rw [Machine.start, Memory.size_reset]
    exact hfits w hw
  have hadvance := advance_of_stores (m := m.start (program (ws ++ rest))) host s
    (reads_code (ws ++ rest)) (by omega) rfl rfl hlimit hfits' n
  rwa [Nat.zero_add] at hadvance

/-- A run of stores ends with exit code 0, since no register has been written. -/
theorem run_program (host : Host σ) (s : σ) {ws : List Store}
    (hsmall : (program ws).size < 0x80000000)
    (hlimit : m.cpu.config.maxSteps = none) (hfits : ∀ w ∈ ws, w.Fits m.memory.size) {n : Nat}
    (hn : ws.length ≤ n) :
    Machine.run host (program ws) n m s =
      ((finish ws (program ws).size (m.start (program ws)), s),
        some (.ok { code := 0, steps := ws.length })) := by
  obtain ⟨extra, rfl⟩ := Nat.exists_eq_add_of_le hn
  have hsize := size_program ws
  have hadvance := advance_program host s [] (by omega) hlimit hfits extra
  have hstop : (finish ws (program ws).size (m.start (program ws))).cpu.isRunning = false := by
    rw [isRunning_of_pointer (p := program ws) rfl rfl hsmall]
    exact decide_eq_false (Nat.lt_irrefl _)
  rw [List.append_nil, ← hsize, Machine.advance_of_not_running hstop] at hadvance
  have hcode : (finish ws (program ws).size (m.start (program ws))).cpu.registers.r1 = 0 := rfl
  have hsteps : (finish ws (program ws).size (m.start (program ws))).cpu.steps = ws.length :=
    Nat.zero_add _
  simp only [Machine.run, hadvance, Machine.settle, hcode, hsteps]

/-- The code of too many stores is not run to its end: behind the last of them that begins below
`2 ^ 31` the pointer wraps around, and a negative pointer traps. -/
theorem run_of_long (host : Host σ) (s : σ) {ws : List Store} (rest : List Store)
    (hlong : ws.length = 0x2aaaaaab) (hlimit : m.cpu.config.maxSteps = none)
    (hfits : ∀ w ∈ ws, w.Fits m.memory.size) {n : Nat} (hn : ws.length < n) :
    ∃ m' dump, Machine.run host (program (ws ++ rest)) n m s =
      ((m', s), some (.error { trap := .outsideProgram (-0x7fffffff), dump })) := by
  obtain ⟨extra, rfl⟩ := Nat.exists_eq_add_of_lt hn
  have hadvance := advance_program host s rest (by omega) hlimit hfits (extra + 1)
  generalize hstopped : finish ws (3 * ws.length) (m.start (program (ws ++ rest))) = m₁ at hadvance
  have hpointer : m₁.cpu.pointer = -0x7fffffff := by
    rw [← hstopped, hlong]
    rfl
  have hrunning : m₁.cpu.isRunning = true := by
    rw [Cpu.isRunning, hpointer]
    exact decide_eq_true (Int.lt_of_lt_of_le (by decide) (Int.natCast_nonneg _))
  have hfetch : Machine.fetch (program (ws ++ rest)) m₁ =
      .error (.outsideProgram (-0x7fffffff)) := by
    rw [Machine.fetch, hpointer]
    rfl
  have hstep : Machine.step host (program (ws ++ rest)) m₁ s = ((m₁, s), _) :=
    Machine.step_eq_some_iff.mpr (Or.inl ⟨hfetch, rfl⟩)
  rw [Machine.advance_succ, if_pos hrunning, hstep] at hadvance
  refine ⟨m₁.halted, CoreDump.capture m₁, ?_⟩
  simp only [Machine.run, Nat.add_assoc, hadvance, Machine.settle]

end Store

end WordMachine
