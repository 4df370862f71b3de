import WordMachine.Word

/-!
# Registers

There are nine registers.  Code names a register by its index, source text by its name in either
letter case.  `Registers` is the whole register file; `Registers.get_set` is the law that its
accessors obey.
-/

namespace WordMachine

/-- A slot of the register file.  `r6` also receives the remainder of every division, and `rip` is
the instruction pointer. -/
inductive Register
  | r1 | r2 | r3 | r4 | r5 | r6 | rbp | rsp | rip
  deriving DecidableEq, Repr

namespace Register

/-- The registers in the order of their indices. -/
def all : List Register := [r1, r2, r3, r4, r5, r6, rbp, rsp, rip]

/-- The number that code uses for a register. -/
def index : Register → Nat
  | r1 => 0 | r2 => 1 | r3 => 2 | r4 => 3 | r5 => 4 | r6 => 5 | rbp => 6 | rsp => 7 | rip => 8

/-- The name that source text uses for a register. -/
def name : Register → String
  | r1 => "r1" | r2 => "r2" | r3 => "r3" | r4 => "r4" | r5 => "r5" | r6 => "r6"
  | rbp => "rbp" | rsp => "rsp" | rip => "rip"

/-- The register that an operand word selects. -/
def ofIndex? (w : Word) : Option Register :=
  (Word.toIndex? w).bind (all[·]?)

/-- The register of a name; the case of ASCII letters does not matter. -/
def ofName? (s : String) : Option Register :=
  all.find? (fun r => r.name == s.toLower)

/-- The operand word that selects a register. -/
def code (r : Register) : Word := Word.ofCount r.index

theorem mem_all (r : Register) : r ∈ all := by cases r <;> decide

@[simp] theorem ofIndex?_code (r : Register) : ofIndex? r.code = some r := by cases r <;> decide

theorem getElem?_index (r : Register) : all[r.index]? = some r := by cases r <;> rfl

end Register

/-- The contents of the nine registers. -/
structure Registers where
  r1 : Word := 0
  r2 : Word := 0
  r3 : Word := 0
  r4 : Word := 0
  r5 : Word := 0
  r6 : Word := 0
  rbp : Word := 0
  rsp : Word := 0
  rip : Word := 0
  deriving DecidableEq, Repr, Inhabited

namespace Registers

def get (f : Registers) : Register → Word
  | .r1 => f.r1 | .r2 => f.r2 | .r3 => f.r3 | .r4 => f.r4 | .r5 => f.r5 | .r6 => f.r6
  | .rbp => f.rbp | .rsp => f.rsp | .rip => f.rip

def set (f : Registers) (r : Register) (v : Word) : Registers :=
  match r with
  | .r1 => { f with r1 := v } | .r2 => { f with r2 := v } | .r3 => { f with r3 := v }
  | .r4 => { f with r4 := v } | .r5 => { f with r5 := v } | .r6 => { f with r6 := v }
  | .rbp => { f with rbp := v } | .rsp => { f with rsp := v } | .rip => { f with rip := v }

/-- The register contents in the order of the indices. -/
def toList (f : Registers) : List Word := Register.all.map f.get

theorem get_set (f : Registers) (r q : Register) (v : Word) :
    (f.set r v).get q = if q = r then v else f.get q := by
  cases r <;> cases q <;> rfl

@[simp] theorem get_set_self (f : Registers) (r : Register) (v : Word) :
    (f.set r v).get r = v := by
  rw [get_set, if_pos rfl]

theorem get_set_of_ne (f : Registers) {r q : Register} (h : q ≠ r) (v : Word) :
    (f.set r v).get q = f.get q := by
  rw [get_set, if_neg h]

end Registers

end WordMachine
