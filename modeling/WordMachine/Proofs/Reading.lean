import WordMachine.Program

/-!
# Reading code from its first word

`walk` and `Program.starts` work on positions.  Statements about code are easier to make about the
instructions themselves, so this file reads code as a list of them: `Reads words i code` says that
the words from position `i` to the end are the instructions of `code`, one directly after the other.

* `walk_eq_ok_iff`: `walk` succeeds exactly where there is such a list, and gives its positions.
* `Program.add_operandCount_lt_of_mem_startsFrom`, `walkFrom_congr`: what holds of the starts of any
  words, and that the reading looks at no other words.
* `decode?_eq_some_iff`: what stands at a position, word by word.  This is the way to carry an
  instruction over from one sequence of words to another.
* `Reads.eq_or_exists_next`, `Reads.next_le_of_lt`: an instruction is followed by another one or by
  the end of the code, and no two instructions overlap.
-/

namespace WordMachine

/-! ## Instructions word by word -/

namespace Instruction

/-- The operands that the operation does not have are zero, as decoding leaves them. -/
def Normal (d : Instruction) : Prop :=
  (d.op.operandCount = 0 → d.first = 0) ∧ (d.op.operandCount ≤ 1 → d.second = 0)

theorem getElem?_words_zero (d : Instruction) : d.words[0]? = some d.op.opcode := rfl

theorem getElem?_words_one {d : Instruction} (hcount : 0 < d.op.operandCount) :
    d.words[1]? = some d.first := by
  simp [words, hcount]

theorem getElem?_words_two {d : Instruction} (hcount : 1 < d.op.operandCount) :
    d.words[2]? = some d.second := by
  simp [words, hcount]

theorem lt_next (d : Instruction) : d.position < d.next := by
  unfold next width
  omega

theorem add_operandCount_eq_next (d : Instruction) :
    d.position + 1 + d.op.operandCount = d.next := by
  unfold next width
  omega

end Instruction

theorem normal_of_decode? {words : Array Word} {i : Nat} {d : Instruction}
    (hdecode : decode? words i = some d) : d.Normal := by
  cases hop : words[i]?.bind Op.ofOpcode? with
  | none => rw [decode?_of_not_opcode hop] at hdecode; cases hdecode
  | some op =>
      simp only [decode?, hop] at hdecode
      split at hdecode
      · cases hdecode
        exact ⟨fun _ => rfl, fun _ => rfl⟩
      · next hcount =>
        obtain ⟨a, -, rfl⟩ := Option.map_eq_some_iff.mp hdecode
        exact ⟨fun h => by simp [hcount] at h, fun _ => rfl⟩
      · next hzero hone =>
        obtain ⟨a, -, hsecond⟩ := Option.bind_eq_some_iff.mp hdecode
        obtain ⟨b, -, rfl⟩ := Option.map_eq_some_iff.mp hsecond
        have hmany : op.operandCount ≠ 0 ∧ op.operandCount ≠ 1 := ⟨hzero, hone⟩
        exact ⟨fun h => absurd h hmany.1, fun h => by simp only at h; omega⟩

theorem position_of_decode? {words : Array Word} {i : Nat} {d : Instruction}
    (hdecode : decode? words i = some d) : d.position = i :=
  (getElem?_of_decode? hdecode).1

/-- The opcode of an instruction stands at its position. -/
theorem getElem?_of_decode?_opcode {words : Array Word} {i : Nat} {d : Instruction}
    (hdecode : decode? words i = some d) : words[i]? = some d.op.opcode :=
  (getElem?_of_decode? hdecode).2 0 d.width_pos

/-- The first operand of an instruction stands after its opcode. -/
theorem getElem?_of_decode?_first {words : Array Word} {i : Nat} {d : Instruction}
    (hdecode : decode? words i = some d) (hcount : 0 < d.op.operandCount) :
    words[i + 1]? = some d.first := by
  rw [(getElem?_of_decode? hdecode).2 1 (by unfold Instruction.width; omega)]
  exact Instruction.getElem?_words_one hcount

theorem next_le_size_of_decode? {words : Array Word} {i : Nat} {d : Instruction}
    (hdecode : decode? words i = some d) : d.next ≤ words.size := by
  obtain ⟨hposition, hwords⟩ := getElem?_of_decode? hdecode
  have hlast := hwords d.op.operandCount (by unfold Instruction.width; omega)
  rw [List.getElem?_eq_getElem (by simp [Instruction.width])] at hlast
  have := (Array.getElem?_eq_some_iff.mp hlast).1
  unfold Instruction.next Instruction.width
  omega

theorem position_lt_size_of_decode? {words : Array Word} {i : Nat} {d : Instruction}
    (hdecode : decode? words i = some d) : d.position < words.size :=
  Nat.lt_of_lt_of_le d.lt_next (next_le_size_of_decode? hdecode)

/-- Decoding finds an instruction exactly where its words stand. -/
theorem decode?_eq_some_iff {words : Array Word} {i : Nat} {d : Instruction} :
    decode? words i = some d ↔
      d.position = i ∧ d.Normal ∧ ∀ k < d.width, words[i + k]? = d.words[k]? := by
  constructor
  · intro hdecode
    obtain ⟨hposition, hwords⟩ := getElem?_of_decode? hdecode
    exact ⟨hposition, normal_of_decode? hdecode, hwords⟩
  · obtain ⟨op, position, first, second⟩ := d
    rintro ⟨rfl, ⟨hfirst, hsecond⟩, hwords⟩
    simp only at hfirst hsecond hwords ⊢
    -- the opcode fixes the operation, and the operation the number of words that follow
    have hop : words[position]?.bind Op.ofOpcode? = some op := by
      have hopcode := hwords 0 (Instruction.width_pos _)
      rw [Nat.add_zero, Instruction.getElem?_words_zero] at hopcode
      rw [hopcode, Option.bind_some, Op.ofOpcode?_opcode]
    simp only [decode?, hop]
    split
    · next hcount =>
      rw [hfirst hcount, hsecond (by omega)]
    · next hcount =>
      rw [hwords 1 (by simp only [Instruction.width]; omega),
        Instruction.getElem?_words_one (by simp only; omega), hsecond (by omega)]
      rfl
    · next hzero hone =>
      have hmany : op.operandCount ≠ 0 ∧ op.operandCount ≠ 1 := ⟨hzero, hone⟩
      rw [hwords 1 (by simp only [Instruction.width]; omega),
        hwords 2 (by simp only [Instruction.width]; omega),
        Instruction.getElem?_words_one (by simp only; omega),
        Instruction.getElem?_words_two (by simp only; omega)]
      rfl

/-- Where an opcode stands with all its operands, an instruction with that operation is found. -/
theorem exists_decode?_of_opcode {words : Array Word} {i : Nat} {op : Op}
    (hop : words[i]?.bind Op.ofOpcode? = some op) (hlt : i + op.operandCount < words.size) :
    ∃ d, decode? words i = some d ∧ d.op = op := by
  obtain ⟨d, hdecode⟩ := Option.isSome_iff_exists.mp (isSome_decode?.mpr ⟨op, hop, hlt⟩)
  refine ⟨d, hdecode, ?_⟩
  rw [getElem?_of_decode?_opcode hdecode, Option.bind_some, Op.ofOpcode?_opcode] at hop
  exact Option.some.inj hop

/-! ## Code as a list of instructions -/

/-- The words from position `i` to the end are the instructions of a list, one directly after the
other. -/
inductive Reads (words : Array Word) : Nat → List Instruction → Prop
  | done : Reads words words.size []
  | step {i : Nat} {d : Instruction} {code : List Instruction}
      (hdecode : decode? words i = some d) (hrest : Reads words d.next code) :
      Reads words i (d :: code)

variable {words : Array Word} {i : Nat} {code : List Instruction}

theorem exists_reads_of_walkFrom {starts : List Nat} (hle : i ≤ words.size)
    (hwalk : walkFrom words i = .ok starts) :
    ∃ code, Reads words i code ∧ starts = code.map Instruction.position := by
  fun_induction walkFrom words i generalizing starts with
  | case1 i hlt hop => cases hwalk
  | case2 i hlt op hop hwhole ih =>
      obtain ⟨d, hdecode, rfl⟩ :=
        exists_decode?_of_opcode (by simp [hlt, hop] : words[i]?.bind Op.ofOpcode? = some op) hwhole
      obtain rfl := position_of_decode? hdecode
      have hnext := d.add_operandCount_eq_next
      cases hrest : walkFrom words (d.position + 1 + d.op.operandCount) with
      | error e => rw [hrest] at hwalk; cases hwalk
      | ok rest =>
          rw [hrest] at hwalk
          cases hwalk
          obtain ⟨code, hreads, rfl⟩ := ih (by omega) hrest
          exact ⟨d :: code, .step hdecode (hnext ▸ hreads), rfl⟩
  | case3 i hlt op hop hcut => cases hwalk
  | case4 i hge =>
      cases hwalk
      obtain rfl : i = words.size := by omega
      exact ⟨[], .done, rfl⟩

theorem walkFrom_of_reads (hreads : Reads words i code) :
    walkFrom words i = .ok (code.map Instruction.position) := by
  induction hreads with
  | done => simp [walkFrom]
  | @step i d code hdecode hrest ih =>
      obtain rfl := position_of_decode? hdecode
      have hopcode := getElem?_of_decode?_opcode hdecode
      obtain ⟨hlt, hword⟩ := Array.getElem?_eq_some_iff.mp hopcode
      have hle := next_le_size_of_decode? hdecode
      have hnext := d.add_operandCount_eq_next
      rw [walkFrom, dif_pos hlt, hword, Op.ofOpcode?_opcode]
      simp only
      rw [if_pos (by omega), hnext, ih]
      rfl

/-- Code can be walked exactly if it falls into instructions, and the walk lists where they
start. -/
theorem walk_eq_ok_iff {starts : List Nat} :
    walk words = .ok starts ↔
      ∃ code, Reads words 0 code ∧ starts = code.map Instruction.position := by
  constructor
  · exact exists_reads_of_walkFrom (Nat.zero_le _)
  · rintro ⟨code, hreads, rfl⟩
    exact walkFrom_of_reads hreads

theorem startsFrom_of_reads (hreads : Reads words i code) :
    Program.startsFrom words i = code.map Instruction.position := by
  induction hreads with
  | done => simp [Program.startsFrom]
  | @step i d code hdecode hrest ih =>
      obtain rfl := position_of_decode? hdecode
      obtain ⟨hlt, hword⟩ := Array.getElem?_eq_some_iff.mp (getElem?_of_decode?_opcode hdecode)
      rw [Program.startsFrom, dif_pos hlt, hword, Op.ofOpcode?_opcode]
      simp only
      rw [d.add_operandCount_eq_next, ih, List.map_cons]

/-! ### Starts of any words

What `Program.startsFrom` lists, whether or not the words can be read to their end. -/

namespace Program

theorem le_of_mem_startsFrom {j : Nat} (hj : j ∈ startsFrom words i) : i ≤ j := by
  fun_induction startsFrom words i with
  | case1 i hlt hop => exact Nat.le_of_eq (List.mem_singleton.mp hj).symm
  | case2 i hlt op hop ih =>
      rcases List.mem_cons.mp hj with rfl | hlater
      · exact Nat.le_refl _
      · have := ih hlater
        omega
  | case3 i hge => cases hj

theorem lt_size_of_mem_startsFrom {j : Nat} (hj : j ∈ startsFrom words i) : j < words.size := by
  fun_induction startsFrom words i with
  | case1 i hlt hop => exact List.mem_singleton.mp hj ▸ hlt
  | case2 i hlt op hop ih =>
      rcases List.mem_cons.mp hj with rfl | hlater
      · exact hlt
      · exact ih hlater
  | case3 i hge => cases hj

/-- The next start comes after the operands of the one before. -/
theorem add_operandCount_lt_of_mem_startsFrom {j k : Nat} {op : Op}
    (hj : j ∈ startsFrom words i) (hk : k ∈ startsFrom words i) (hlt : j < k)
    (hop : words[j]?.bind Op.ofOpcode? = some op) : j + op.operandCount < k := by
  fun_induction startsFrom words i with
  | case1 i hsize hnone =>
      obtain rfl := List.mem_singleton.mp hj
      obtain rfl := List.mem_singleton.mp hk
      exact absurd hlt (Nat.lt_irrefl _)
  | case2 i hsize op' hop' ih =>
      rcases List.mem_cons.mp hk with rfl | hklater
      · rcases List.mem_cons.mp hj with rfl | hjlater
        · exact absurd hlt (Nat.lt_irrefl _)
        · have := le_of_mem_startsFrom hjlater
          omega
      · rcases List.mem_cons.mp hj with rfl | hjlater
        · obtain rfl : op' = op := by simpa [hsize, hop'] using hop
          have := le_of_mem_startsFrom hklater
          omega
        · exact ih hjlater hklater
  | case3 i hge => cases hj

theorem pairwise_startsFrom (words : Array Word) (i : Nat) :
    (startsFrom words i).Pairwise (· < ·) := by
  fun_induction startsFrom words i with
  | case1 i hlt hop => exact List.pairwise_singleton ..
  | case2 i hlt op hop ih =>
      refine .cons (fun j hj => ?_) ih
      have := le_of_mem_startsFrom hj
      omega
  | case3 i hge => exact .nil

end Program

/-- The reading looks only at the words that it finds instructions to start with. -/
theorem walkFrom_congr {words' : Array Word} (hsize : words'.size = words.size)
    (hsame : ∀ j ∈ Program.startsFrom words i, words'[j]? = words[j]?) :
    walkFrom words' i = walkFrom words i := by
  fun_induction Program.startsFrom words i with
  | case1 i hlt hop =>
      have hword : words'[i] = words[i] := by simpa [hlt, hsize] using hsame i (by simp)
      rw [walkFrom, walkFrom, dif_pos (hsize ▸ hlt), dif_pos hlt, hword, hop]
  | case2 i hlt op hop ih =>
      have hword : words'[i] = words[i] := by simpa [hlt, hsize] using hsame i (by simp)
      have hrest := ih fun j hj => hsame j (List.mem_cons_of_mem _ hj)
      rw [walkFrom, walkFrom, dif_pos (hsize ▸ hlt), dif_pos hlt, hword, hop]
      simp only [hsize, hrest]
  | case3 i hge => rw [walkFrom, walkFrom, dif_neg (hsize ▸ hge), dif_neg hge]

theorem startsFrom_of_walk {starts : List Nat} (hwalk : walk words = .ok starts) :
    Program.startsFrom words 0 = starts := by
  obtain ⟨code, hreads, rfl⟩ := walk_eq_ok_iff.mp hwalk
  exact startsFrom_of_reads hreads

namespace Reads

/-- The positions of the instructions are the starts of the code. -/
theorem mem_startsFrom (hreads : Reads words i code) {d : Instruction} (hd : d ∈ code) :
    d.position ∈ Program.startsFrom words i := by
  rw [startsFrom_of_reads hreads]
  exact List.mem_map_of_mem hd

/-- Each instruction of the list is found at its own position. -/
theorem decode?_of_mem (hreads : Reads words i code) {d : Instruction} (hd : d ∈ code) :
    decode? words d.position = some d := by
  induction hreads with
  | done => cases hd
  | @step i e code hdecode hrest ih =>
      rcases List.mem_cons.mp hd with rfl | hd
      · rw [position_of_decode? hdecode, hdecode]
      · exact ih hd

/-- What is found at the position of an instruction of the list is that instruction. -/
theorem eq_of_decode? (hreads : Reads words i code) {d e : Instruction} (hd : d ∈ code)
    (hdecode : decode? words d.position = some e) : e = d :=
  Option.some.inj (hdecode.symm.trans (hreads.decode?_of_mem hd))

/-- The first position is that of an instruction, or the end of the code. -/
theorem eq_or_exists_position (hreads : Reads words i code) :
    i = words.size ∨ ∃ d ∈ code, d.position = i := by
  cases hreads with
  | done => exact Or.inl rfl
  | step hdecode hrest => exact Or.inr ⟨_, List.mem_cons_self .., position_of_decode? hdecode⟩

/-- An instruction of the list is followed by another one, or by the end of the code. -/
theorem eq_or_exists_next (hreads : Reads words i code) {d : Instruction} (hd : d ∈ code) :
    d.next = words.size ∨ ∃ e ∈ code, e.position = d.next := by
  induction hreads with
  | done => cases hd
  | @step i head code hdecode hrest ih =>
      rcases List.mem_cons.mp hd with rfl | hd
      · rcases hrest.eq_or_exists_position with hend | ⟨e, he, hposition⟩
        · exact Or.inl hend
        · exact Or.inr ⟨e, List.mem_cons_of_mem _ he, hposition⟩
      · rcases ih hd with hend | ⟨e, he, hposition⟩
        · exact Or.inl hend
        · exact Or.inr ⟨e, List.mem_cons_of_mem _ he, hposition⟩

/-- No two instructions overlap. -/
theorem next_le_of_lt (hreads : Reads words i code) {d e : Instruction} (hd : d ∈ code)
    (he : e ∈ code) (hlt : d.position < e.position) : d.next ≤ e.position := by
  have hop : words[d.position]?.bind Op.ofOpcode? = some d.op := by
    rw [getElem?_of_decode?_opcode (hreads.decode?_of_mem hd), Option.bind_some,
      Op.ofOpcode?_opcode]
  have hbehind := Program.add_operandCount_lt_of_mem_startsFrom (hreads.mem_startsFrom hd)
    (hreads.mem_startsFrom he) hlt hop
  have hnext := d.add_operandCount_eq_next
  omega

/-- The same code read from other words, if each instruction stands there in a changed form that
takes up the same words. -/
theorem map {words' : Array Word} {f : Instruction → Instruction} (hreads : Reads words i code)
    (hsize : words'.size = words.size) (hnext : ∀ d ∈ code, (f d).next = d.next)
    (hdecode : ∀ d ∈ code, decode? words' d.position = some (f d)) :
    Reads words' i (code.map f) := by
  induction hreads with
  | done => exact hsize ▸ .done
  | @step i d code hhead hrest ih =>
      have hposition := position_of_decode? hhead
      have hd := hdecode d (List.mem_cons_self ..)
      rw [hposition] at hd
      refine .step hd ?_
      rw [hnext d (List.mem_cons_self ..)]
      exact ih (fun e he => hnext e (List.mem_cons_of_mem _ he))
        (fun e he => hdecode e (List.mem_cons_of_mem _ he))

end Reads

/-- The instruction starts of code that can be read to its end. -/
theorem Program.has_starts_iff {p : Program} (hreads : Reads p.words 0 code) {i : Nat} :
    p.starts.has i = true ↔ ∃ d ∈ code, d.position = i := by
  rw [Program.starts, Marks.has_ofList, startsFrom_of_reads hreads, List.mem_map]
  constructor
  · exact fun h => h.1
  · rintro ⟨d, hd, rfl⟩
    exact ⟨⟨d, hd, rfl⟩, position_lt_size_of_decode? (hreads.decode?_of_mem hd)⟩

end WordMachine
