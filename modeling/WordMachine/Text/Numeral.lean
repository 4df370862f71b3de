import WordMachine.Word

/-!
# Numerals

Reading and writing whole numbers in a base.  A numeral is an optional sign and one or more digits;
a letter digit may stand in either case.  Digits are read from the left, and the first position
that goes wrong decides: a character that is no digit there is reported before the value being too
large there.

`magnitude_toDigits` says that the digits of a number read back as the number.
-/

namespace WordMachine.Text

/-- Why a text is not a numeral. -/
inductive NumeralError
  | empty | invalidDigit | tooLarge
  deriving DecidableEq, Repr

def NumeralError.message : NumeralError → String
  | .empty => "cannot parse integer from empty string"
  | .invalidDigit => "invalid digit found in string"
  | .tooLarge => "number too large to fit in target type"

/-- The value of a digit or a letter: 0 to 35. -/
def alphanumericValue? (c : Char) : Option Nat :=
  if '0' ≤ c ∧ c ≤ '9' then some (c.toNat - '0'.toNat)
  else if 'a' ≤ c ∧ c ≤ 'z' then some (c.toNat - 'a'.toNat + 10)
  else if 'A' ≤ c ∧ c ≤ 'Z' then some (c.toNat - 'A'.toNat + 10)
  else none

/-- The value of a digit of a base. -/
def digitValue? (base : Nat) (c : Char) : Option Nat :=
  (alphanumericValue? c).filter (· < base)

/-- The number that `acc` followed by the given digits denotes, which must stay below `bound`. -/
def magnitude (base bound acc : Nat) : List Char → Except NumeralError Nat
  | [] => .ok acc
  | c :: cs =>
    match digitValue? base c with
    | none => .error .invalidDigit
    | some d =>
      if acc * base + d < bound then magnitude base bound (acc * base + d) cs
      else .error .tooLarge

/-- A number below `bound`: an optional plus sign, then digits. -/
def unsigned (base bound : Nat) (s : List Char) : Except NumeralError Nat :=
  match s with
  | [] => .error .empty
  | ['+'] => .error .invalidDigit
  | '+' :: digits => magnitude base bound 0 digits
  | digits => magnitude base bound 0 digits

/-- A word: an optional sign, then digits; the value must be one that a word has. -/
def signedWord? (base : Nat) (s : List Char) : Option Word :=
  match s with
  | ['-'] => none
  | '-' :: digits => (magnitude base 0x80000001 0 digits).toOption.map fun n => Word.wrap (-n)
  | digits => (unsigned base 0x80000000 digits).toOption.map Word.ofCount

def hex (n : Nat) : String := String.ofList (Nat.toDigits 16 n)

/-- A text filled up on the left to a width, counted in characters. -/
def padLeft (width : Nat) (fill : Char) (s : String) : String :=
  String.ofList (s.toList.leftpad width fill)

/-- A text filled up with spaces on the right to a width, counted in characters. -/
def padRight (width : Nat) (s : String) : String :=
  String.ofList (s.toList.rightpad width ' ')

/-- The lowercase hexadecimal digits of a number, at least `width` of them. -/
def hexPadded (width n : Nat) : String := padLeft width '0' (hex n)

/-- The hexadecimal digits of a number, marked as such. -/
def hexMarked (n : Nat) : String := "0x" ++ hex n

/-- An integer in decimal. -/
def decimal (i : Int) : String := toString i

/-- An integer in decimal that always shows its sign. -/
def decimalSigned (i : Int) : String :=
  if 0 ≤ i then "+" ++ decimal i else decimal i

/-! ### Digits -/

theorem digitValue?_digitChar {d : Nat} (h : d < 16) :
    digitValue? 16 (Nat.digitChar d) = some d := by
  have : ∀ d < 16, digitValue? 16 (Nat.digitChar d) = some d := by decide
  exact this d h

theorem magnitude_append (base bound acc : Nat) (s t : List Char) :
    magnitude base bound acc (s ++ t) =
      (magnitude base bound acc s).bind fun n => magnitude base bound n t := by
  induction s generalizing acc with
  | nil => rfl
  | cons c cs ih =>
    simp only [List.cons_append, magnitude]
    split
    · rfl
    · split
      · exact ih _
      · rfl

/-- The digits of a number read back as the number. -/
theorem magnitude_toDigits {base bound n : Nat} (two : 1 < base)
    (digit : ∀ d < base, digitValue? base (Nat.digitChar d) = some d) (h : n < bound) :
    magnitude base bound 0 (Nat.toDigits base n) = .ok n := by
  induction n using Nat.strongRecOn with
  | ind n ih =>
    by_cases small : n < base
    · rw [Nat.toDigits_of_lt_base small]
      simp [magnitude, digit n small, h]
    · have shorter : n / base < n := Nat.div_lt_self (by omega) two
      rw [Nat.toDigits_of_base_le two (by omega), magnitude_append, ih _ shorter (by omega)]
      have sum : n / base * base + n % base = n := Nat.div_add_mod' n base
      simp [Except.bind, magnitude, digit _ (Nat.mod_lt n (by omega)), sum, h]

end WordMachine.Text
