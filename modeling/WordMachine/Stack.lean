import WordMachine.Word

/-!
# The stack

One stack of words serves calls as well as pushes and pops.  It is kept as its entries, the top
first, and the number of slots that are still free, so that no stack ever holds more than its
capacity, and pushing and popping keep the capacity (`capacity_push`, `capacity_pop`).
-/

namespace WordMachine

/-- Why a stack operation fails. -/
inductive StackError
  | overflow (capacity : Nat)
  | underflow
  deriving DecidableEq, Repr

def StackError.message : StackError → String
  | .overflow capacity => "stack overflow (capacity " ++ toString capacity ++ ")"
  | .underflow => "stack underflow"

/-- A stack of bounded depth. -/
structure Stack where
  /-- The entries, the top first. -/
  entries : List Word := []
  /-- The number of further entries that the stack can take. -/
  free : Nat
  deriving DecidableEq, Repr, Inhabited

namespace Stack

def empty (capacity : Nat) : Stack := { free := capacity }

def size (s : Stack) : Nat := s.entries.length

/-- The number of entries that the stack can hold in all. -/
def capacity (s : Stack) : Nat := s.size + s.free

def isEmpty (s : Stack) : Bool := s.entries.isEmpty

/-- Whether the stack can take no further entry. -/
def isFull (s : Stack) : Bool := s.free == 0

def push (s : Stack) (v : Word) : Except StackError Stack :=
  match s.free with
  | 0 => .error (.overflow s.capacity)
  | free + 1 => .ok { entries := v :: s.entries, free }

def pop (s : Stack) : Except StackError (Word × Stack) :=
  match s.entries with
  | [] => .error .underflow
  | v :: rest => .ok (v, { entries := rest, free := s.free + 1 })

def clear (s : Stack) : Stack := empty s.capacity

theorem size_le_capacity (s : Stack) : s.size ≤ s.capacity := Nat.le_add_right ..

@[simp] theorem capacity_empty (n : Nat) : (empty n).capacity = n := by
  simp [capacity, size, empty]

@[simp] theorem capacity_clear (s : Stack) : s.clear.capacity = s.capacity := capacity_empty _

theorem capacity_push {s t : Stack} {v : Word} (h : s.push v = .ok t) :
    t.capacity = s.capacity := by
  unfold push at h
  split at h
  · cases h
  · next free hf =>
    cases h
    simp [capacity, size, hf]
    omega

theorem capacity_pop {s t : Stack} {v : Word} (h : s.pop = .ok (v, t)) :
    t.capacity = s.capacity := by
  unfold pop at h
  split at h
  · cases h
  · next he =>
    cases h
    simp [capacity, size, he]
    omega

theorem pop_push {s t : Stack} {v : Word} (h : s.push v = .ok t) : t.pop = .ok (v, s) := by
  unfold push at h
  split at h
  · cases h
  · next free hf =>
    cases h
    cases s
    simp_all [pop]

end Stack

end WordMachine
