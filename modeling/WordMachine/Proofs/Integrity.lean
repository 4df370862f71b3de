import WordMachine.Flow.Graph
import WordMachine.Host.Scripted
import WordMachine.Proofs.Resolution
import WordMachine.Proofs.Runs
import WordMachine.Proofs.Transfer

/-!
# Control stays within resolved code

Resolved code that only `call` and `retn` put words on the stack of, and that does not write the
instruction pointer as a register, keeps control on its own instructions: the pointer stands on an
instruction or at the end of the code, and every entry of the stack is the position of a call.

The invariant (`Within`) is stated for any set of positions that is closed under the edges of the
control flow graph (`Region`).  For the set of all instruction starts it is control-flow integrity;
for the positions that an analysis has visited it says that the analysis has missed nothing.
-/

namespace WordMachine

variable {p : Program} {code : List Instruction} {words : Array Word}

/-! ## Regular programs -/

/-- Words that read linearly contain only disciplined instructions. -/
def DisciplinedCode (words : Array Word) : Prop :=
  ∀ i ∈ Program.startsFrom words 0, ∀ d ∈ decode? words i, d.Disciplined

instance (d : Instruction) : Decidable d.Disciplined :=
  inferInstanceAs (Decidable (_ ∧ _))

instance (words : Array Word) : Decidable (DisciplinedCode words) :=
  inferInstanceAs (Decidable (∀ i ∈ Program.startsFrom words 0, ∀ d ∈ decode? words i,
    d.Disciplined))

/-- A program that consists of disciplined instructions whose jumps and calls lead to labels. -/
structure Regular (p : Program) (code : List Instruction) : Prop where
  size_lt : p.size < 0x7fffffff
  reads : Reads p.words 0 code
  linked : Label.Linked code
  disciplined : ∀ d ∈ code, d.Disciplined

theorem disciplined_of_mem (hwords : DisciplinedCode words) (hreads : Reads words 0 code)
    {d : Instruction} (hd : d ∈ code) : d.Disciplined :=
  hwords d.position (hreads.mem_startsFrom hd) d (Option.mem_def.mpr (hreads.decode?_of_mem hd))

theorem Instruction.Disciplined.link {d : Instruction} (hd : d.Disciplined) :
    (Label.link words d).Disciplined := by
  by_cases hop : d.op.refersToLabel = true
  · rcases Label.jump_or_call_of_refersToLabel hop with ⟨condition, hjump⟩ | hcall
    · exact ⟨by simp [hjump], by simp [hjump, Op.writesRegister]⟩
    · exact ⟨by simp [hcall], by simp [hcall, Op.writesRegister]⟩
  · rw [Label.link_of_not_refersToLabel (Bool.eq_false_iff.mpr hop)]
    exact hd

/-- Code before and after its labels are resolved: the program is regular and consists of the linked
instructions of the words. -/
structure Resolved (words : Array Word) (p : Program) (code : List Instruction) : Prop where
  reads : Reads words 0 code
  regular : Regular p (code.map (Label.link words))
  size_eq : p.size = words.size
  found : ∀ d ∈ code, d.op.refersToLabel = true →
    ∃ target, Label.position? words d.first = some target

theorem exists_resolved (hsmall : words.size < 0x7fffffff)
    (hresolve : Label.resolve words = .ok p) (hwords : DisciplinedCode words) :
    ∃ code, Resolved words p code := by
  obtain ⟨code, hreads, hlinked, hsize, hfound⟩ := Label.reads_of_resolve hresolve
  refine ⟨code, hreads, ⟨?_, hlinked, ?_, ?_⟩, hsize, hfound⟩
  · rw [hsize]
    exact hsmall
  · exact Label.linked_map_link hreads (by omega) hfound
  · intro d hd
    obtain ⟨e, he, rfl⟩ := List.mem_map.mp hd
    exact (disciplined_of_mem hwords hreads he).link

/-- The positions of a regular program are words. -/
theorem Regular.position_lt (hregular : Regular p code) {d : Instruction} (hd : d ∈ code) :
    d.position < 0x80000000 := by
  have hlt := position_lt_size_of_decode? (hregular.reads.decode?_of_mem hd)
  have hsize := hregular.size_lt
  unfold Program.size at hsize
  omega

/-! ## Regions of the control flow graph -/

/-- Instruction starts such that every edge that leads from one of them to an instruction leads to
one of them. -/
structure Region (p : Program) (V : Nat → Prop) : Prop where
  start : ∀ i, V i → p.starts.has i = true
  follow : ∀ i, V i → ∀ e ∈ (Flow.CodeMap.ofProgram p).edgesAt i, ∀ j,
    (Flow.CodeMap.ofProgram p).landing? e = some j → V j

theorem landing?_eq_some_iff {c : Flow.CodeMap} {e : Flow.Edge} {j : Nat} :
    c.landing? e = some j ↔ e.target = j ∧ c.starts.has j = true := by
  unfold Flow.CodeMap.landing?
  constructor
  · intro h
    split at h
    · next hland =>
      cases h
      exact ⟨(Int.toNat_of_nonneg hland.1).symm, hland.2⟩
    · cases h
  · rintro ⟨htarget, hstart⟩
    rw [htarget, Int.toNat_natCast, if_pos ⟨Int.natCast_nonneg j, hstart⟩]

/-- All instruction starts of a program are a region of it. -/
theorem region_starts (p : Program) : Region p fun i => p.starts.has i = true where
  start _ h := h
  follow _ _ _ _ _ hland := (landing?_eq_some_iff.mp hland).2

namespace Flow

variable {size : Nat} {d : Instruction}

/-- Only a jump that is always taken, `retn` and `hlt` do not pass control on to what follows. -/
theorem next_mem_edgesOf (hop : d.op ≠ .jump .always ∧ d.op ≠ .retn ∧ d.op ≠ .halt)
    (hnext : d.next < size) : ⟨d.position, d.next, .fallthrough⟩ ∈ edgesOf size d := by
  unfold edgesOf
  cases hcase : d.op with
  | jump condition =>
      cases condition with
      | always => exact absurd hcase hop.1
      | _ => simp
  | call => simp
  | retn => exact absurd hcase hop.2.1
  | halt => exact absurd hcase hop.2.2
  | _ => simp [hnext]

/-- A jump or a call has an edge to where it leads. -/
theorem destination_mem_edgesOf (size : Nat) (hop : d.op.refersToLabel = true) :
    ∃ e ∈ edgesOf size d, e.target = d.destination := by
  rcases Label.jump_or_call_of_refersToLabel hop with ⟨condition, hjump⟩ | hcall
  · cases condition <;> simp [edgesOf, hjump]
  · simp [edgesOf, hcall]

end Flow

namespace Region

variable {V : Nat → Prop} {d : Instruction}

theorem edgesAt_ofProgram (hdecode : decode? p.words d.position = some d) :
    (Flow.CodeMap.ofProgram p).edgesAt d.position = Flow.edgesOf p.size d := by
  simp only [Flow.CodeMap.edgesAt, Flow.CodeMap.ofProgram, hdecode]

/-- From a region control passes on to the next instruction of it, or to the end of the code. -/
theorem next (hregion : Region p V) (hreads : Reads p.words 0 code) (hd : d ∈ code)
    (hV : V d.position) (hop : d.op ≠ .jump .always ∧ d.op ≠ .retn ∧ d.op ≠ .halt) :
    d.next = p.size ∨ V d.next := by
  rcases hreads.eq_or_exists_next hd with hend | ⟨e, he, hposition⟩
  · exact Or.inl hend
  · have hstart : p.starts.has d.next = true :=
      (Program.has_starts_iff hreads).mpr ⟨e, he, hposition⟩
    have hlt : d.next < p.size := by
      have := Marks.lt_size_of_has hstart
      rwa [Program.size_starts] at this
    have hedge := Flow.next_mem_edgesOf hop hlt
    rw [← edgesAt_ofProgram (hreads.decode?_of_mem hd)] at hedge
    exact Or.inr (hregion.follow d.position hV _ hedge d.next
      (landing?_eq_some_iff.mpr ⟨rfl, hstart⟩))

/-- The label that a jump or a call of a region leads to is in the region. -/
theorem leap (hregion : Region p V) (hreads : Reads p.words 0 code) (hd : d ∈ code)
    (hV : V d.position) (hop : d.op.refersToLabel = true) {l : Instruction} (hl : l ∈ code)
    (hdestination : d.destination = l.position) : V l.position := by
  have hstart : p.starts.has l.position = true :=
    (Program.has_starts_iff hreads).mpr ⟨l, hl, rfl⟩
  obtain ⟨e, he, htarget⟩ := Flow.destination_mem_edgesOf p.size hop
  rw [← edgesAt_ofProgram (hreads.decode?_of_mem hd)] at he
  exact hregion.follow d.position hV e he l.position
    (landing?_eq_some_iff.mpr ⟨htarget.trans hdestination, hstart⟩)

end Region

/-! ## The invariant -/

/-- Control is within a region: the pointer stands on a position of it or behind the code, and the
stack holds positions of calls in it. -/
structure Within (p : Program) (V : Nat → Prop) (m : Machine) : Prop where
  programSize : m.cpu.programSize = p.size
  pointer : p.size ≤ m.cpu.pointer.toInt ∨ ∃ i, V i ∧ m.cpu.pointer = Word.ofCount i
  returns : ∀ v ∈ m.cpu.stack.entries, ∃ d, decode? p.words d.position = some d ∧ d.op = .call ∧
    V d.position ∧ v = Word.ofCount d.position

namespace Within

variable {σ : Type} {host : Host σ} {V : Nat → Prop} {d : Instruction} {m m' : Machine}

theorem loaded (hregular : Regular p code) (hfirst : p.starts.has 0 = true → V 0) (m : Machine) :
    Within p V (m.loaded p) := by
  refine ⟨rfl, ?_, ?_⟩
  · rw [Machine.pointer_loaded]
    rcases hregular.reads.eq_or_exists_position with hempty | ⟨d, hd, hposition⟩
    · left
      unfold Program.size
      rw [← hempty]
      decide
    · right
      exact ⟨0, hfirst ((Program.has_starts_iff hregular.reads).mpr ⟨d, hd, hposition⟩), rfl⟩
  · intro v hv
    rw [Machine.entries_loaded] at hv
    cases hv

/-- A running machine stands on an instruction of the code. -/
theorem exists_mem (hregular : Regular p code) (hregion : Region p V) (hwithin : Within p V m)
    (hrunning : m.cpu.isRunning = true) :
    ∃ d ∈ code, V d.position ∧ m.cpu.pointer = Word.ofCount d.position := by
  unfold Cpu.isRunning at hrunning
  rw [decide_eq_true_eq, hwithin.programSize] at hrunning
  rcases hwithin.pointer with hend | ⟨i, hV, hpointer⟩
  · omega
  · obtain ⟨d, hd, rfl⟩ := (Program.has_starts_iff hregular.reads).mp (hregion.start i hV)
    exact ⟨d, hd, hV, hpointer⟩

/-- Only the step limit keeps a running machine from fetching the instruction it stands on. -/
theorem exists_fetch_eq (hregular : Regular p code) (hregion : Region p V)
    (hwithin : Within p V m) (hrunning : m.cpu.isRunning = true) :
    ∃ d ∈ code, V d.position ∧ Machine.fetch p m =
      match m.cpu.reachedLimit? with
      | some limit => .error (.stepLimit limit)
      | none => .ok d := by
  obtain ⟨d, hd, hV, hpointer⟩ := hwithin.exists_mem hregular hregion hrunning
  exact ⟨d, hd, hV, Machine.fetch_of_decode? hpointer (hregular.position_lt hd)
    (hregular.reads.decode?_of_mem hd)⟩

/-- What a running machine fetches is an instruction of the code and the region. -/
theorem mem_of_fetch (hregular : Regular p code) (hregion : Region p V) (hwithin : Within p V m)
    (hrunning : m.cpu.isRunning = true) (hfetch : Machine.fetch p m = .ok d) :
    d ∈ code ∧ V d.position := by
  obtain ⟨e, he, hV, hfetches⟩ := hwithin.exists_fetch_eq hregular hregion hrunning
  rw [hfetches] at hfetch
  split at hfetch
  · cases hfetch
  · cases hfetch
    exact ⟨he, hV⟩

/-- The pointer after an instruction that is followed by one of the region or by the end. -/
theorem pointer_of_next (hsize : p.size < 0x7fffffff) (hnext : d.next = p.size ∨ V d.next) :
    p.size ≤ (Word.ofCount d.next).toInt ∨ ∃ i, V i ∧ Word.ofCount d.next = Word.ofCount i := by
  rcases hnext with hend | hV
  · left
    have hvalue : (Word.ofCount d.next).toInt = p.size := by
      rw [hend, Word.toInt_ofCount (by omega)]
    exact Int.le_of_eq hvalue.symm
  · exact Or.inr ⟨d.next, hV, rfl⟩

/-- A transfer of control from an instruction of a region stays within the region. -/
theorem of_transfer (hregular : Regular p code) (hregion : Region p V) (hwithin : Within p V m)
    (hd : d ∈ code) (hV : V d.position) (htransfer : Transfer d m m')
    (hprogramSize : m'.cpu.programSize = m.cpu.programSize) : Within p V m' := by
  have hreads := hregular.reads
  have hsize := hregular.size_lt
  have hsame : m'.cpu.programSize = p.size := hprogramSize.trans hwithin.programSize
  cases htransfer with
  | next hop hpointer hstack =>
      refine ⟨hsame, ?_, ?_⟩
      · rw [hpointer]
        exact pointer_of_next hsize (hregion.next hreads hd hV ⟨hop.1, hop.2.2.1, hop.2.2.2⟩)
      · intro v hv
        exact hwithin.returns v (hstack hv)
  | jump condition hop hpointer hstack =>
      have hrefers : d.op.refersToLabel = true := by rw [hop]; rfl
      obtain ⟨l, hl, hlabel, hdestination⟩ := hregular.linked d hd hrefers
      have hVl := hregion.leap hreads hd hV hrefers hl hdestination
      have hnext : Word.ofCount d.position + d.first + 2 = Word.ofCount l.next := by
        -- the bias of two that the jump leaves makes up for the two words of the label
        rw [Instruction.position_add_first (by simp [hop, Op.form]) (hregular.position_lt hd)
          hdestination, Instruction.ofCount_position_add_two (by rw [hlabel]; rfl)]
      refine ⟨hsame, ?_, ?_⟩
      · rw [hpointer, hnext]
        exact pointer_of_next hsize (hregion.next hreads hl hVl (by simp [hlabel]))
      · rw [hstack]
        exact hwithin.returns
  | call hop hpointer hstack =>
      have hrefers : d.op.refersToLabel = true := by rw [hop]; rfl
      obtain ⟨l, hl, hlabel, hdestination⟩ := hregular.linked d hd hrefers
      refine ⟨hsame, Or.inr ⟨l.position, ?_, ?_⟩, ?_⟩
      · exact hregion.leap hreads hd hV hrefers hl hdestination
      · rw [hpointer, Instruction.first_add_one hop hdestination]
      · intro v hv
        rw [Stack.entries_of_push hstack] at hv
        rcases List.mem_cons.mp hv with rfl | hold
        · exact ⟨d, hreads.decode?_of_mem hd, hop, hV, rfl⟩
        · exact hwithin.returns v hold
  | retn v hop hpointer hstack =>
      have hentries := Stack.entries_of_pop hstack
      obtain ⟨e, hdecode', hcall, hVe, rfl⟩ :=
        hwithin.returns v (by rw [hentries]; exact List.mem_cons_self ..)
      -- the word on top of the stack belongs to a call of the region, which control has not left
      have he : e ∈ code := by
        obtain ⟨c, hc, hposition⟩ := (Program.has_starts_iff hreads).mp (hregion.start _ hVe)
        rw [← hposition] at hdecode'
        rwa [hreads.eq_of_decode? hc hdecode']
      refine ⟨hsame, ?_, ?_⟩
      · rw [hpointer, Instruction.ofCount_position_add_two (by rw [hcall]; rfl)]
        exact pointer_of_next hsize (hregion.next hreads he hVe (by simp [hcall]))
      · intro w hw
        refine hwithin.returns w ?_
        rw [hentries]
        exact List.mem_cons_of_mem _ hw
  | stop hop hpointer hstack =>
      -- the pointer is left on the word after the end, the step adding one to it as always
      refine ⟨hsame, Or.inl ?_, ?_⟩
      · rw [hpointer, hwithin.programSize, Word.clamp_of_lt (by omega), ← Word.ofCount_succ,
          Word.toInt_ofCount (by omega)]
        omega
      · rw [hstack]
        exact hwithin.returns

/-- A step of a running machine stays within a region. -/
theorem step (hregular : Regular p code) (hregion : Region p V) (hwithin : Within p V m)
    (hrunning : m.cpu.isRunning = true) {s : σ} {c : Machine × σ}
    (hstep : Machine.step host p m s = (c, none)) : Within p V c.1 := by
  obtain ⟨d, m₁, hfetch, hcarry, hleave⟩ := Machine.step_eq_none_iff.mp hstep
  obtain ⟨hd, hV⟩ := hwithin.mem_of_fetch hregular hregion hrunning hfetch
  rw [hleave]
  refine hwithin.of_transfer hregular hregion hd hV
    (Machine.transfer_of_carryOut (hregular.disciplined d hd) hcarry) ?_
  rw [Machine.programSize_leave, (Machine.agreeOff_of_carryOut hcarry).programSize,
    Machine.programSize_enter]

/-- A running machine within a region always finds an instruction; only the step limit can keep it
from carrying it out. -/
theorem isOfFetch_of_step (hregular : Regular p code) (hregion : Region p V)
    (hwithin : Within p V m) (hrunning : m.cpu.isRunning = true) {s : σ} {c : Machine × σ}
    {t : Trap} (hstep : Machine.step host p m s = (c, some t)) :
    t.isOfFetch = false ∨ ∃ limit, t = .stepLimit limit := by
  rcases Machine.step_eq_some_iff.mp hstep with ⟨hfetch, -⟩ | ⟨d, -, hcarry⟩
  · obtain ⟨d, -, -, hfetches⟩ := hwithin.exists_fetch_eq hregular hregion hrunning
    rw [hfetches] at hfetch
    split at hfetch
    · next limit _ => cases hfetch; exact Or.inr ⟨limit, rfl⟩
    · cases hfetch
  · exact Or.inl (Machine.agreeOff_of_carryOut_error hcarry).2

/-- A run stays within a region in which it begins. -/
theorem of_reaches (hregular : Regular p code) (hregion : Region p V) {c c' : Machine × σ}
    (hwithin : Within p V c.1) (hreaches : Machine.Reaches host p c c') : Within p V c'.1 := by
  induction hreaches with
  | first => exact hwithin
  | step _ hrunning hstep ih => exact ih.step hregular hregion hrunning hstep

end Within

/-! ## Control-flow integrity -/

section Integrity

variable {σ : Type}

/-- Whatever the memory and the host, a run of resolved code keeps its pointer on instructions until
it is behind the code and only positions of calls on its stack, and it is never trapped for want of
an instruction. -/
theorem control_flow_integrity (hsmall : words.size < 0x7fffffff)
    (hresolve : Label.resolve words = .ok p) (hwords : DisciplinedCode words) (host : Host σ)
    (m : Machine) (s : σ) :
    (∀ m' s', Machine.Reaches host p (m.loaded p, s) (m', s') →
      ((∃ i : Nat, m'.cpu.pointer.toInt = i ∧ p.starts.has i = true) ∨
          p.size ≤ m'.cpu.pointer.toInt) ∧
        ∀ v ∈ m'.cpu.stack.entries, ∃ (i : Nat) (d : Instruction), v.toInt = i ∧
          p.starts.has i = true ∧ decode? p.words i = some d ∧ d.op = .call) ∧
    ∀ n c t, Machine.advance host p n (m.loaded p) s = (c, .trapped t) →
      (∀ i opcode, t ≠ .invalidInstruction i opcode) ∧ ∀ w, t ≠ .outsideProgram w := by
  obtain ⟨code, hresolved⟩ := exists_resolved hsmall hresolve hwords
  have hregular := hresolved.regular
  have hregion := region_starts p
  have hfirst : Within p (fun i => p.starts.has i = true) (m.loaded p) :=
    .loaded hregular (fun h => h) m
  have hvalue : ∀ i, p.starts.has i = true → (Word.ofCount i).toInt = i := by
    intro i hi
    have hlt := Marks.lt_size_of_has hi
    have hsize := hregular.size_lt
    rw [Program.size_starts] at hlt
    exact Word.toInt_ofCount (by omega)
  constructor
  · intro m' s' hreaches
    have hwithin := Within.of_reaches hregular hregion hfirst hreaches
    constructor
    · rcases hwithin.pointer with hend | ⟨i, hi, hpointer⟩
      · exact Or.inr hend
      · exact Or.inl ⟨i, hpointer ▸ hvalue i hi, hi⟩
    · intro v hv
      obtain ⟨d, hdecode, hcall, hd, rfl⟩ := hwithin.returns v hv
      exact ⟨d.position, d, hvalue d.position hd, hd, hdecode, hcall⟩
  · intro n c t hadvance
    obtain ⟨m₁, s₁, hreaches, hrunning, hstep⟩ := Machine.reaches_of_advance_trapped hadvance
    have hwithin := Within.of_reaches hregular hregion hfirst hreaches
    rcases hwithin.isOfFetch_of_step hregular hregion hrunning hstep with hown | ⟨limit, rfl⟩
    · constructor
      · rintro i opcode rfl
        cases hown
      · rintro w rfl
        cases hown
    · constructor
      · intro i opcode heq
        cases heq
      · intro w heq
        cases heq

/-- In a program that calls its one label and halts, only the call is ever on the stack. -/
theorem control_flow_integrity_of_call :
    Label.resolve #[30, 7, 32, 18, 7, 31] = .ok ⟨#[30, 2, 32, 18, 7, 31]⟩ ∧
      ∀ m' s', Machine.Reaches ScriptedHost.answer ⟨#[30, 2, 32, 18, 7, 31]⟩
          ((Machine.new {}).loaded ⟨#[30, 2, 32, 18, 7, 31]⟩, {}) (m', s') →
        ∀ v ∈ m'.cpu.stack.entries, v = 0 := by
  have hresolve : Label.resolve #[30, 7, 32, 18, 7, 31] = .ok ⟨#[30, 2, 32, 18, 7, 31]⟩ := by
    with_unfolding_all rfl
  refine ⟨hresolve, fun m' s' hreaches v hv => ?_⟩
  obtain ⟨-, hstack⟩ :=
    (control_flow_integrity (by decide) hresolve (by decide +kernel) _ _ _).1 m' s' hreaches
  obtain ⟨i, d, hvalue, hstart, hdecode, hcall⟩ := hstack v hv
  have honly : ∀ i < 6, ∀ d ∈ decode? #[30, 2, 32, 18, 7, 31] i, d.op = .call → i = 0 := by
    decide
  have hlt : i < 6 := by
    have hlt := Marks.lt_size_of_has hstart
    rwa [Program.size_starts] at hlt
  obtain rfl := honly i hlt d (Option.mem_def.mpr hdecode) hcall
  exact Int32.toInt_inj.mp hvalue

end Integrity

end WordMachine
