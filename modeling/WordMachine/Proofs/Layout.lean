import WordMachine.Proofs.Reading

/-!
# Code written out from instructions

`Reads` takes code apart into instructions.  Here code is put together from them: the words of some
instructions, one instruction after the other, read as these instructions again, each at the
position where its words have come to stand (`reads_layOut`).  Words that come about in this way are
`Whole`, and whole words behind whole words are whole.
-/

namespace WordMachine

variable {d : Instruction} {ds : List Instruction} {words words' : List Word}

/-- The instructions with the first at position `i` and each of the others directly behind the one
before it. -/
def layOut (i : Nat) : List Instruction → List Instruction
  | [] => []
  | d :: ds => { d with position := i } :: layOut (i + d.width) ds

/-- The words of some instructions, one instruction after the other. -/
def Whole (words : List Word) : Prop :=
  ∃ ds : List Instruction, (∀ d ∈ ds, d.Normal) ∧ words = ds.flatMap Instruction.words

/-- Decoding finds an instruction where its words have been written. -/
theorem decode?_append_words (hd : d.Normal) (before after : List Word) :
    decode? (before ++ (d.words ++ after)).toArray before.length =
      some { d with position := before.length } := by
  refine decode?_eq_some_iff.mpr ⟨rfl, hd, fun k hk => ?_⟩
  have hlt : k < d.words.length := by rw [Instruction.length_words]; exact hk
  rw [List.getElem?_toArray, List.getElem?_append_right (Nat.le_add_right ..),
    Nat.add_sub_cancel_left, List.getElem?_append_left hlt]
  rfl

/-- The words of some instructions read as these instructions, wherever they stand. -/
theorem reads_layOut (hds : ∀ d ∈ ds, d.Normal) (before : List Word) :
    Reads (before ++ ds.flatMap Instruction.words).toArray before.length
      (layOut before.length ds) := by
  induction ds generalizing before with
  | nil =>
      rw [List.flatMap_nil, List.append_nil, ← List.size_toArray]
      exact .done
  | cons d ds ih =>
      have hrest := ih (fun e he => hds e (List.mem_cons_of_mem _ he)) (before ++ d.words)
      rw [List.append_assoc, List.length_append, Instruction.length_words] at hrest
      exact .step (decode?_append_words (hds d (List.mem_cons_self ..)) before _) hrest

theorem exists_op_eq_of_mem_layOut {i : Nat} (hd : d ∈ layOut i ds) : ∃ e ∈ ds, d.op = e.op := by
  induction ds generalizing i with
  | nil => cases hd
  | cons e ds ih =>
      rcases List.mem_cons.mp hd with rfl | hd
      · exact ⟨e, List.mem_cons_self .., rfl⟩
      · obtain ⟨e', he', hop⟩ := ih hd
        exact ⟨e', List.mem_cons_of_mem _ he', hop⟩

namespace Whole

theorem nil : Whole [] := ⟨[], by simp⟩

theorem append (hwords : Whole words) (hwords' : Whole words') : Whole (words ++ words') := by
  obtain ⟨ds, hds, rfl⟩ := hwords
  obtain ⟨ds', hds', rfl⟩ := hwords'
  exact ⟨ds ++ ds', List.forall_mem_append.mpr ⟨hds, hds'⟩, List.flatMap_append.symm⟩

/-- An opcode and as many words as it has operands are one instruction. -/
theorem opcode_cons {op : Op} {operands : List Word} (hlength : operands.length = op.operandCount) :
    Whole (op.opcode :: operands) := by
  have hle := op.operandCount_le
  obtain ⟨d, hd, hwords⟩ : ∃ d : Instruction, d.Normal ∧ d.words = op.opcode :: operands := by
    match operands, hlength with
    | [], hlength =>
        exact ⟨{ op, position := 0 }, ⟨fun _ => rfl, fun _ => rfl⟩,
          by simp [Instruction.words, ← hlength]⟩
    | [a], hlength =>
        refine ⟨{ op, position := 0, first := a }, ⟨fun h => ?_, fun _ => rfl⟩,
          by simp [Instruction.words, ← hlength]⟩
        simp [← hlength] at h
    | [a, b], hlength =>
        refine ⟨{ op, position := 0, first := a, second := b }, ⟨fun h => ?_, fun h => ?_⟩,
          by simp [Instruction.words, ← hlength]⟩ <;> simp [← hlength] at h
    | _ :: _ :: _ :: _, hlength => simp at hlength; omega
  exact ⟨[d], by simpa using hd, by simp [hwords]⟩

theorem exists_walk (hwords : Whole words) : ∃ starts, walk words.toArray = .ok starts := by
  obtain ⟨ds, hds, rfl⟩ := hwords
  exact ⟨_, walkFrom_of_reads (reads_layOut hds [])⟩

end Whole

end WordMachine
