import WordMachine.Assembly.Literal
import WordMachine.Register

/-!
# Symbols

The names that source text has given a meaning: constants stand for words, variables for blocks of
memory.  The blocks follow each other from address 0 on in the order of declaration, so a variable
starts where the sizes of the variables before it add up to.
-/

namespace WordMachine.Assembly

/-- A block of memory with a name. -/
structure Variable where
  name : String
  /-- The size in bytes. -/
  size : Nat
  deriving DecidableEq, Repr

/-- The constants, the latest first, and the variables in the order of declaration. -/
structure Symbols where
  constants : List (String × Word) := []
  vars : List Variable := []
  deriving DecidableEq, Repr, Inhabited

def totalSize : List Variable → Nat
  | [] => 0
  | v :: rest => v.size + totalSize rest

/-- The offset of the first variable of a name, when `base` bytes lie before the variables. -/
def offsetFrom? (base : Nat) (name : String) : List Variable → Option Nat
  | [] => none
  | v :: rest => if v.name = name then some base else offsetFrom? (base + v.size) name rest

namespace Symbols

def constant? (t : Symbols) (name : String) : Option Word := t.constants.lookup name

/-- The address at which a variable starts. -/
def offset? (t : Symbols) (name : String) : Option Nat := offsetFrom? 0 name t.vars

/-- Whether a variable of the name is declared. -/
def hasVariable (t : Symbols) (name : String) : Bool :=
  t.vars.any fun v => v.name == name

/-- Whether a constant of the name is declared. -/
def hasConstant (t : Symbols) (name : String) : Bool := (t.constant? name).isSome

/-- The number of bytes that the variables take up. -/
def usedSpace (t : Symbols) : Nat := totalSize t.vars

def addConstant (t : Symbols) (name : String) (value : Word) : Symbols :=
  { t with constants := (name, value) :: t.constants }

def addVariable (t : Symbols) (v : Variable) : Symbols :=
  { t with vars := t.vars ++ [v] }

/-- The value of a literal, or else the address of a variable. -/
def literalOrOffset? (t : Symbols) (text : String) : Option Word :=
  (literal? text.toList).or ((t.offset? text).map Word.ofCount)

/-- The value of an operand: of a literal, or else of a register name, or else of a constant, or
else the address of a variable. -/
def operand? (t : Symbols) (text : String) : Option Word :=
  (literal? text.toList).or <|
    ((Register.ofName? text).map Register.code).or <|
      (t.constant? text).or ((t.offset? text).map Word.ofCount)

end Symbols

/-! ### Offsets -/

theorem offsetFrom?_append (base : Nat) (name : String) (vs ws : List Variable) :
    offsetFrom? base name (vs ++ ws) =
      (offsetFrom? base name vs).or (offsetFrom? (base + totalSize vs) name ws) := by
  induction vs generalizing base with
  | nil => simp [offsetFrom?, totalSize]
  | cons v rest ih =>
    simp only [List.cons_append, offsetFrom?]
    split
    · rfl
    · rw [ih]
      simp [totalSize, Nat.add_assoc]

theorem offsetFrom?_eq_none {base : Nat} {name : String} {vs : List Variable} :
    offsetFrom? base name vs = none ↔ ∀ v ∈ vs, v.name ≠ name := by
  induction vs generalizing base with
  | nil => simp [offsetFrom?]
  | cons v rest ih =>
    unfold offsetFrom?
    split
    · next h => simp [h]
    · next h => simp [ih, h]

@[simp] theorem Symbols.constant?_addVariable (t : Symbols) (v : Variable) (name : String) :
    (t.addVariable v).constant? name = t.constant? name := rfl

@[simp] theorem Symbols.offset?_addConstant (t : Symbols) (name other : String) (value : Word) :
    (t.addConstant name value).offset? other = t.offset? other := rfl

theorem Symbols.constant?_addConstant (t : Symbols) (name other : String) (value : Word) :
    (t.addConstant name value).constant? other =
      if other = name then some value else t.constant? other := by
  by_cases h : other = name
  · subst h; simp [constant?, addConstant]
  · rw [if_neg h]
    simp [constant?, addConstant, List.lookup_cons, show (other == name) = false by simpa using h]

theorem Symbols.offset?_addVariable (t : Symbols) (v : Variable) (name : String) :
    (t.addVariable v).offset? name =
      (t.offset? name).or (if v.name = name then some t.usedSpace else none) := by
  simp only [offset?, addVariable, offsetFrom?_append, usedSpace, Nat.zero_add]
  rfl

end WordMachine.Assembly
