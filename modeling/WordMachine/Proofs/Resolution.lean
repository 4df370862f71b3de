import WordMachine.Label.Resolve
import WordMachine.Proofs.Positions
import WordMachine.Proofs.Reading

/-!
# What resolving labels produces

`Label.resolve` collects labels into a table and then patches words in place.  Here its outcome is
described by instructions: resolved code consists of the same instructions at the same positions,
each of them with its reference, if it has one, replaced (`link`).

* `lookup_of_collect`: the table finds for an id the first label that carries it.
* `reads_of_resolve`: the instructions of resolved code are the linked instructions of the code.
* `destination_link`: a linked reference leads to the label with its id.
* `linked_map_link`: in resolved code every jump and every call leads to a label.
-/

namespace WordMachine.Label

variable {words : Array Word}

/-- The position of the label with an id, the code being read from its first word. -/
def position? (words : Array Word) (id : Word) : Option Nat :=
  (Program.startsFrom words 0).find? fun i => markerAt? words i == some id

/-- An instruction with its reference, if it has one, replaced. -/
def link (words : Array Word) (d : Instruction) : Instruction :=
  if d.op.refersToLabel then
    match position? words d.first with
    | some target => { d with first := offset words d.position target }
    | none => d
  else d

/-! ## The operand of an instruction -/

/-- The references are the jumps and the calls. -/
theorem jump_or_call_of_refersToLabel {op : Op} (hop : op.refersToLabel = true) :
    (∃ condition, op = .jump condition) ∨ op = .call := by
  cases op with
  | jump condition => exact Or.inl ⟨condition, rfl⟩
  | call => exact Or.inr rfl
  | binary _ mode | compare mode | store _ mode | load _ mode => cases mode <;> cases hop
  | _ => cases hop

theorem operandCount_of_refersToLabel {op : Op} (hop : op.refersToLabel = true) :
    op.operandCount = 1 := by
  rcases jump_or_call_of_refersToLabel hop with ⟨condition, rfl⟩ | rfl <;> rfl

theorem operandCount_of_takesLabel {op : Op} (hop : op.takesLabel = true) :
    op.operandCount = 1 := by
  unfold Op.takesLabel Op.refersToLabel at hop
  unfold Op.operandCount
  cases hform : op.form <;> simp [hform] at hop <;> rfl

theorem operandIf?_of_decode? {i : Nat} {d : Instruction} {select : Op → Bool}
    (hdecode : decode? words i = some d) (hcount : 0 < d.op.operandCount) :
    operandIf? words select i = if select d.op then some d.first else none := by
  simp only [operandIf?, getElem?_of_decode?_opcode hdecode, Option.bind_some,
    Op.ofOpcode?_opcode, getElem?_of_decode?_first hdecode hcount]

theorem markerAt?_eq_some_iff {i : Nat} {d : Instruction} {id : Word}
    (hdecode : decode? words i = some d) :
    markerAt? words i = some id ↔ d.op = .label ∧ d.first = id := by
  by_cases hop : d.op = .label
  · rw [markerAt?, operandIf?_of_decode? hdecode (by rw [hop]; decide)]
    simp [hop]
  · simp [markerAt?, operandIf?, getElem?_of_decode?_opcode hdecode, hop]

theorem referenceAt?_eq_some_iff {i : Nat} {d : Instruction} {id : Word}
    (hdecode : decode? words i = some d) :
    referenceAt? words i = some id ↔ d.op.refersToLabel = true ∧ d.first = id := by
  by_cases hop : d.op.refersToLabel = true
  · have hcount : 0 < d.op.operandCount := by
      rw [operandCount_of_refersToLabel hop]
      decide
    rw [referenceAt?, operandIf?_of_decode? hdecode hcount]
    simp [hop]
  · simp [referenceAt?, operandIf?, getElem?_of_decode?_opcode hdecode, hop]

/-! ## Collecting -/

/-- The table of labels finds what was known before and else the first label with the id. -/
theorem lookup_of_collect {known table : Targets} {starts : List Nat}
    (hcollect : collect words known starts = .ok table) (id : Word) :
    table.lookup id =
      (known.lookup id).or (starts.find? fun i => markerAt? words i == some id) := by
  induction starts generalizing known with
  | nil =>
      cases hcollect
      simp
  | cons position rest ih =>
      cases hmarker : markerAt? words position with
      | none =>
          simp only [collect, hmarker] at hcollect
          rw [ih hcollect]
          simp [hmarker]
      | some here =>
          simp only [collect, hmarker] at hcollect
          split at hcollect
          · cases hcollect
          · next hnew =>
            rw [ih hcollect, List.lookup_cons, List.find?_cons, hmarker]
            by_cases hid : id = here
            · -- the label here is the first one, as the table has not known its id
              subst hid
              rw [Option.not_isSome_iff_eq_none.mp hnew]
              simp
            · have hforward : (id == here) = false := beq_false_of_ne hid
              have hbackward : (some here == some id) = false :=
                beq_false_of_ne fun h => hid (Option.some.inj h).symm
              simp only [hforward, hbackward]

/-! ## Patching -/

section Patch

variable {known : Targets} {out out' : Array Word} {starts : List Nat}

theorem size_of_patch (hpatch : patch words known out starts = .ok out') :
    out'.size = out.size := by
  induction starts generalizing out with
  | nil => cases hpatch; rfl
  | cons position rest ih =>
      simp only [patch] at hpatch
      split at hpatch
      · exact ih hpatch
      · split at hpatch
        · cases hpatch
        · rw [ih hpatch, Array.size_setIfInBounds]

/-- Patching leaves a word alone that does not follow the opcode of a reference. -/
theorem getElem?_of_patch_of_no_reference (hpatch : patch words known out starts = .ok out')
    {j : Nat} (hj : ∀ i ∈ starts, ∀ id, referenceAt? words i = some id → i + 1 ≠ j) :
    out'[j]? = out[j]? := by
  induction starts generalizing out with
  | nil => cases hpatch; rfl
  | cons position rest ih =>
      have hrest : ∀ i ∈ rest, ∀ id, referenceAt? words i = some id → i + 1 ≠ j :=
        fun i hi => hj i (List.mem_cons_of_mem _ hi)
      simp only [patch] at hpatch
      split at hpatch
      · exact ih hpatch hrest
      · next id hreference =>
        split at hpatch
        · cases hpatch
        · rw [ih hpatch hrest,
            Array.getElem?_setIfInBounds_ne (hj position (List.mem_cons_self ..) id hreference)]

/-- Patching writes the offset of a known label after the opcode of a reference. -/
theorem getElem?_of_patch_of_reference (hpatch : patch words known out starts = .ok out')
    {i : Nat} {id : Word} (hi : i ∈ starts) (hreference : referenceAt? words i = some id)
    (hlt : i + 1 < out.size) :
    ∃ target, known.lookup id = some target ∧ out'[i + 1]? = some (offset words i target) := by
  induction starts generalizing out with
  | nil => cases hi
  | cons position rest ih =>
      by_cases hlater : i ∈ rest
      · simp only [patch] at hpatch
        split at hpatch
        · exact ih hpatch hlater hlt
        · split at hpatch
          · cases hpatch
          · exact ih hpatch hlater (by simpa using hlt)
      · -- the word is written here, and by no later reference
        obtain rfl : i = position := by simpa [hlater] using hi
        simp only [patch, hreference] at hpatch
        split at hpatch
        · cases hpatch
        · next target htarget =>
          refine ⟨target, htarget, ?_⟩
          rw [getElem?_of_patch_of_no_reference hpatch]
          · simp [hlt]
          · rintro k hk - - hsame
            obtain rfl : k = i := by omega
            exact hlater hk

end Patch

/-! ## The instructions of resolved code -/

theorem link_of_not_refersToLabel {d : Instruction} (hop : d.op.refersToLabel = false) :
    link words d = d := by
  simp [link, hop]

theorem link_of_position? {d : Instruction} {target : Nat} (hop : d.op.refersToLabel = true)
    (htarget : position? words d.first = some target) :
    link words d = { d with first := offset words d.position target } := by
  simp [link, hop, htarget]

@[simp] theorem op_link (d : Instruction) : (link words d).op = d.op := by
  unfold link
  split
  · split <;> rfl
  · rfl

@[simp] theorem position_link (d : Instruction) : (link words d).position = d.position := by
  unfold link
  split
  · split <;> rfl
  · rfl

@[simp] theorem next_link (d : Instruction) : (link words d).next = d.next := by
  simp [Instruction.next, Instruction.width]

/-- The label with an id is an instruction of the code. -/
theorem exists_mem_of_position? {code : List Instruction} {id : Word} {target : Nat}
    (hreads : Reads words 0 code) (htarget : position? words id = some target) :
    ∃ l ∈ code, l.position = target ∧ l.op = .label ∧ l.first = id := by
  rw [position?, startsFrom_of_reads hreads] at htarget
  have hmem := List.mem_of_find?_eq_some htarget
  have hmarker := List.find?_some htarget
  obtain ⟨l, hl, rfl⟩ := List.mem_map.mp hmem
  have hlabel := (markerAt?_eq_some_iff (hreads.decode?_of_mem hl)).mp (by simpa using hmarker)
  exact ⟨l, hl, rfl, hlabel.1, hlabel.2⟩

/-- Where the references of code are patched as a table of its labels says, each instruction is
found linked. -/
theorem decode?_of_patch {code : List Instruction} {known : Targets} {out : Array Word}
    (hreads : Reads words 0 code) (hknown : ∀ id, known.lookup id = position? words id)
    (hpatch : patch words known words (code.map Instruction.position) = .ok out)
    {d : Instruction} (hd : d ∈ code) :
    decode? out d.position = some (link words d) ∧
      (d.op.refersToLabel = true → ∃ target, position? words d.first = some target) := by
  have hdecode := hreads.decode?_of_mem hd
  obtain ⟨-, hnormal, hwords⟩ := decode?_eq_some_iff.mp hdecode
  -- a word of this instruction can follow no opcode of a reference but its own
  have hown : ∀ k < d.width, ∀ i ∈ code.map Instruction.position, ∀ id,
      referenceAt? words i = some id → i + 1 = d.position + k → i = d.position := by
    intro k hk i hi id hreference hsame
    obtain ⟨e, he, rfl⟩ := List.mem_map.mp hi
    have hop := ((referenceAt?_eq_some_iff (hreads.decode?_of_mem he)).mp hreference).1
    have hcount := operandCount_of_refersToLabel hop
    rcases Nat.lt_trichotomy e.position d.position with hlt | heq | hgt
    · have := hreads.next_le_of_lt he hd hlt
      simp only [Instruction.next, Instruction.width, hcount] at this
      omega
    · exact heq
    · have := hreads.next_le_of_lt hd he hgt
      simp only [Instruction.next] at this
      omega
  -- so all its words are kept, but for the one that states what it refers to
  have hkept : ∀ k < d.width, (k = 1 → d.op.refersToLabel = false) →
      out[d.position + k]? = d.words[k]? := by
    intro k hk hfirst
    rw [← hwords k hk]
    refine getElem?_of_patch_of_no_reference hpatch fun i hi id hreference hsame => ?_
    obtain rfl := hown k hk i hi id hreference hsame
    have hop := ((referenceAt?_eq_some_iff hdecode).mp hreference).1
    rw [hfirst (by omega)] at hop
    cases hop
  cases hop : d.op.refersToLabel with
  | false =>
      rw [link_of_not_refersToLabel hop]
      refine ⟨decode?_eq_some_iff.mpr ⟨rfl, hnormal, fun k hk => hkept k hk fun _ => hop⟩, ?_⟩
      intro hrefers
      cases hrefers
  | true =>
      have hcount := operandCount_of_refersToLabel hop
      have hle := next_le_size_of_decode? hdecode
      have hnext : d.next = d.position + 2 := by
        simp only [Instruction.next, Instruction.width, hcount]
      obtain ⟨target, htarget, hpatched⟩ :=
        getElem?_of_patch_of_reference hpatch (List.mem_map_of_mem hd)
          ((referenceAt?_eq_some_iff hdecode).mpr ⟨hop, rfl⟩) (by omega)
      rw [hknown] at htarget
      rw [link_of_position? hop htarget]
      refine ⟨decode?_eq_some_iff.mpr ⟨rfl, ⟨fun h => ?_, hnormal.2⟩, fun k hk => ?_⟩,
        fun _ => ⟨target, htarget⟩⟩
      · simp [hcount] at h
      · simp only [Instruction.width, hcount] at hk
        obtain rfl | rfl : k = 0 ∨ k = 1 := by omega
        · rw [hkept 0 d.width_pos (by simp)]
          rfl
        · rw [hpatched, Instruction.getElem?_words_one (by simp [hcount])]

/-- Resolved code consists of the linked instructions of the code, and no reference in it is left
without its label. -/
theorem reads_of_resolve {p : Program} (hresolve : resolve words = .ok p) :
    ∃ code, Reads words 0 code ∧ Reads p.words 0 (code.map (link words)) ∧
      p.size = words.size ∧
      ∀ d ∈ code, d.op.refersToLabel = true → ∃ target, position? words d.first = some target := by
  unfold resolve at hresolve
  split at hresolve
  · cases hresolve
  · next starts hwalk =>
    obtain ⟨code, hreads, rfl⟩ := walk_eq_ok_iff.mp hwalk
    split at hresolve
    · cases hresolve
    · next known hcollect =>
      have hknown : ∀ id, known.lookup id = position? words id := fun id => by
        rw [lookup_of_collect hcollect, position?, startsFrom_of_reads hreads]
        rfl
      cases hpatch : patch words known words (code.map Instruction.position) with
      | error e => rw [hpatch] at hresolve; cases hresolve
      | ok out =>
          rw [hpatch] at hresolve
          cases hresolve
          have hsize := size_of_patch hpatch
          exact ⟨code, hreads,
            hreads.map hsize (fun d _ => next_link d)
              (fun d hd => (decode?_of_patch hreads hknown hpatch hd).1),
            hsize, fun d hd => (decode?_of_patch hreads hknown hpatch hd).2⟩

/-! ## Where linked references lead -/

theorem offset_of_decode? {i target : Nat} {d : Instruction} (hdecode : decode? words i = some d) :
    offset words i target =
      if d.op = .call then Word.ofCount target - 1
      else Word.ofCount target - Word.ofCount i := by
  have hiff : words[i]? = some Op.call.opcode ↔ d.op = .call := by
    rw [getElem?_of_decode?_opcode hdecode, Option.some.injEq]
    exact ⟨Op.opcode_injective, fun h => h ▸ rfl⟩
  simp only [offset, hiff]

/-- A linked reference leads to the label with its id. -/
theorem destination_link {code : List Instruction} {d : Instruction} {target : Nat}
    (hreads : Reads words 0 code) (hsize : words.size < 0x80000000) (hd : d ∈ code)
    (hop : d.op.refersToLabel = true) (htarget : position? words d.first = some target) :
    (link words d).destination = target := by
  have hdecode := hreads.decode?_of_mem hd
  have hlt : d.position < 0x80000000 :=
    Nat.lt_trans (position_lt_size_of_decode? hdecode) hsize
  have htargetlt : target < 0x80000000 := by
    obtain ⟨l, hl, rfl, -, -⟩ := exists_mem_of_position? hreads htarget
    exact Nat.lt_trans (position_lt_size_of_decode? (hreads.decode?_of_mem hl)) hsize
  rw [link_of_position? hop htarget, offset_of_decode? hdecode]
  rcases jump_or_call_of_refersToLabel hop with ⟨condition, hjump⟩ | hcall
  · -- the distance of a jump is counted from its opcode
    rw [if_neg (by simp [hjump]),
      Instruction.destination_eq_add (by simp [hjump, Op.form]) (by simp only; omega)]
    simp only [Word.toInt_ofCount_sub htargetlt hlt]
    omega
  · -- a call states the position before its label
    rw [if_pos hcall, Instruction.destination]
    simp only [hcall, Op.form, Word.toInt_ofCount_sub_one htargetlt]
    omega

/-- Code in which every jump and every call leads to a label. -/
def Linked (code : List Instruction) : Prop :=
  ∀ d ∈ code, d.op.refersToLabel = true → ∃ l ∈ code, l.op = .label ∧ d.destination = l.position

/-- Code whose references all have their labels is linked by linking its instructions. -/
theorem linked_map_link {code : List Instruction} (hreads : Reads words 0 code)
    (hsize : words.size < 0x80000000)
    (hfound : ∀ d ∈ code, d.op.refersToLabel = true →
      ∃ target, position? words d.first = some target) :
    Linked (code.map (link words)) := by
  intro d hd hop
  obtain ⟨e, he, rfl⟩ := List.mem_map.mp hd
  rw [op_link] at hop
  obtain ⟨target, htarget⟩ := hfound e he hop
  obtain ⟨l, hl, rfl, hlabel, -⟩ := exists_mem_of_position? hreads htarget
  refine ⟨link words l, List.mem_map_of_mem hl, ?_, ?_⟩
  · rw [op_link, hlabel]
  · rw [position_link, destination_link hreads hsize he hop htarget]

end WordMachine.Label
