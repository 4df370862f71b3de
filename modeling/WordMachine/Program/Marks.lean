/-!
# Sets of positions

The instruction starts of a program, the positions that an analysis has visited and the like are
sets of positions below the length of the program.  They are kept as one truth value per position;
`Marks.has_mark` says what marking a position does, and `Marks.toList` lists the marked positions
in ascending order.
-/

namespace WordMachine

/-- A set of positions below a fixed length. -/
structure Marks where
  flags : Array Bool
  deriving DecidableEq, Repr

namespace Marks

def none (n : Nat) : Marks := ⟨Array.replicate n false⟩

def has (m : Marks) (i : Nat) : Bool := m.flags[i]?.getD false

/-- The set with one more position; a position beyond the length changes nothing. -/
def mark (m : Marks) (i : Nat) : Marks := ⟨m.flags.setIfInBounds i true⟩

/-- The length below which all positions lie. -/
def size (m : Marks) : Nat := m.flags.size

/-- The marked positions in ascending order. -/
def toList (m : Marks) : List Nat := (List.range m.size).filter m.has

/-- The set of the positions in a list that lie below `n`. -/
def ofList (n : Nat) (positions : List Nat) : Marks := positions.foldl mark (none n)

@[simp] theorem has_none (n i : Nat) : (none n).has i = false := by
  simp [has, none, Array.getElem?_replicate]
  split <;> rfl

@[simp] theorem size_none (n : Nat) : (none n).size = n := by simp [size, none]

@[simp] theorem size_mark (m : Marks) (i : Nat) : (m.mark i).size = m.size := by
  simp [size, mark]

theorem has_mark (m : Marks) (i j : Nat) :
    (m.mark i).has j = (m.has j || decide (i = j ∧ j < m.size)) := by
  by_cases h : i = j
  · subst h
    by_cases lt : i < m.flags.size <;> simp [has, mark, size, lt]
  · simp [has, mark, h]

theorem has_eq_false_of_le {m : Marks} {i : Nat} (h : m.size ≤ i) : m.has i = false := by
  simp [has, Array.getElem?_eq_none h]

theorem lt_size_of_has {m : Marks} {i : Nat} (h : m.has i = true) : i < m.size := by
  by_cases lt : i < m.size
  · exact lt
  · rw [has_eq_false_of_le (by omega)] at h
    cases h

@[simp] theorem mem_toList {m : Marks} {i : Nat} : i ∈ m.toList ↔ m.has i = true := by
  simp only [toList, List.mem_filter, List.mem_range, and_iff_right_iff_imp]
  exact lt_size_of_has

theorem size_foldl_mark (positions : List Nat) (m : Marks) :
    (positions.foldl mark m).size = m.size := by
  induction positions generalizing m with
  | nil => rfl
  | cons i is ih => rw [List.foldl_cons, ih, size_mark]

theorem has_foldl_mark (positions : List Nat) (m : Marks) (j : Nat) :
    (positions.foldl mark m).has j = (m.has j || decide (j ∈ positions ∧ j < m.size)) := by
  induction positions generalizing m with
  | nil => simp
  | cons i is ih =>
    rw [List.foldl_cons, ih, has_mark, size_mark]
    by_cases h : i = j <;> by_cases lt : j < m.size <;> simp [h, lt, Ne.symm]

@[simp] theorem size_ofList (n : Nat) (positions : List Nat) : (ofList n positions).size = n := by
  rw [ofList, size_foldl_mark, size_none]

theorem has_ofList {n : Nat} {positions : List Nat} {j : Nat} :
    (ofList n positions).has j = true ↔ j ∈ positions ∧ j < n := by
  simp [ofList, has_foldl_mark]

end Marks

end WordMachine
