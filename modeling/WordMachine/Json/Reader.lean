import WordMachine.Json.Basic
import WordMachine.Text.Numeral

/-!
# Reading JSON

`Json.parse?` reads a whole text as one value and accepts exactly the grammar of the format.  The
readers below it take a value off the front of a text and give back the rest.

A string may state a surrogate that is not half of a pair.  That is no character, and it is refused
in the member names of an outermost object; anywhere else the replacement character stands for it.
-/

namespace WordMachine.Json

/-- Whether a character may stand between the parts of a value. -/
def isSpace (c : Char) : Bool := c == ' ' || c == '\n' || c == '\r' || c == '\t'

/-- A text from its first character on that is not a space. -/
def skipSpace (s : List Char) : List Char := s.dropWhile isSpace

/-- The number that four hexadecimal digits denote, and the rest. -/
def fourDigits? (s : List Char) : Option (Nat × List Char) :=
  match s with
  | a :: b :: c :: d :: rest =>
    if [a, b, c, d].all fun x => (Text.digitValue? 16 x).isSome then
      (Text.magnitude 16 0x10000 0 [a, b, c, d]).toOption.map (·, rest)
    else none
  | _ => none

/-- Whether a number is that of the first half of a surrogate pair. -/
def isHighSurrogate (n : Nat) : Bool := 0xd800 ≤ n && n < 0xdc00

/-- Whether a number is that of the second half of a surrogate pair. -/
def isLowSurrogate (n : Nat) : Bool := 0xdc00 ≤ n && n < 0xe000

/-- The character of a numeric escape, whose number is read, and the rest; `none` as the character
stands for a surrogate without its other half. -/
def afterNumber (n : Nat) (rest : List Char) : Option Char × List Char :=
  if isHighSurrogate n then
    match rest with
    | '\\' :: 'u' :: more =>
      match fourDigits? more with
      | some (k, more) =>
        if isLowSurrogate k then
          (some (Char.ofNat (0x10000 + (n - 0xd800) * 0x400 + (k - 0xdc00))), more)
        else (none, rest)
      | none => (none, rest)
    | _ => (none, rest)
  else if isLowSurrogate n then (none, rest)
  else (some (Char.ofNat n), rest)

/-- The character that an escape of one letter stands for. -/
def letterEscape? : Char → Option Char
  | '"' => some '"'
  | '\\' => some '\\'
  | '/' => some '/'
  | 'b' => some '\x08'
  | 'f' => some '\x0c'
  | 'n' => some '\n'
  | 'r' => some '\r'
  | 't' => some '\t'
  | _ => none

/-- Reads a string from after its opening quote on, in at most `fuel` characters. -/
def characters? (fuel : Nat) (s : List Char) : Option (List (Option Char) × List Char) :=
  match fuel, s with
  | 0, _ => none
  | _ + 1, [] => none
  | _ + 1, '"' :: rest => some ([], rest)
  | fuel + 1, '\\' :: 'u' :: rest => do
    let (n, rest) ← fourDigits? rest
    let (c, rest) := afterNumber n rest
    let (cs, rest) ← characters? fuel rest
    return (c :: cs, rest)
  | fuel + 1, '\\' :: e :: rest => do
    let c ← letterEscape? e
    let (cs, rest) ← characters? fuel rest
    return (some c :: cs, rest)
  | fuel + 1, c :: rest =>
    if c.toNat < 0x20 then none
    else do
      let (cs, rest) ← characters? fuel rest
      return (some c :: cs, rest)

/-- Reads a string from after its opening quote on.  A strict one holds no lone surrogate. -/
def string? (strict : Bool) (s : List Char) : Option (String × List Char) := do
  let (cs, rest) ← characters? (s.length + 1) s
  if strict && cs.contains none then none
  return (String.ofList (cs.map fun c => c.getD '\ufffd'), rest)

/-- The digits at the front of a text and the rest. -/
def spanDigits (s : List Char) : List Char × List Char := s.span Char.isDigit

/-- Reads the part of a number after a decimal point, if there is one; the result tells whether
there is. -/
def fraction? (s : List Char) : Option (Bool × List Char) :=
  match s with
  | '.' :: rest =>
    let (digits, rest) := spanDigits rest
    if digits.isEmpty then none else some (true, rest)
  | rest => some (false, rest)

/-- Reads the exponent of a number, if there is one; the result tells whether there is. -/
def exponent? (s : List Char) : Option (Bool × List Char) :=
  let digits? (rest : List Char) : Option (Bool × List Char) :=
    let (digits, rest) := spanDigits rest
    if digits.isEmpty then none else some (true, rest)
  match s with
  | e :: sign :: rest =>
    if e == 'e' || e == 'E' then
      if sign == '+' || sign == '-' then digits? rest else digits? (sign :: rest)
    else some (false, s)
  | [e] => if e == 'e' || e == 'E' then none else some (false, s)
  | [] => some (false, s)

/-- Reads a number without its sign: its digits before the point, and whether it is an integer. -/
def unsignedNumber? (s : List Char) : Option (Nat × Bool × List Char) := do
  let (digits, rest) := spanDigits s
  let wellFormed : Bool :=
    match digits with
    | [] => false
    | ['0'] => true
    | '0' :: _ => false
    | _ => true
  if !wellFormed then none
  let (hasFraction, rest) ← fraction? rest
  let (hasExponent, rest) ← exponent? rest
  let value := digits.foldl (fun n c => n * 10 + (c.toNat - '0'.toNat)) 0
  return (value, !hasFraction && !hasExponent, rest)

/-- Reads a number.  Minus zero is not an integer. -/
def number? (s : List Char) : Option (Json × List Char) :=
  match s with
  | '-' :: rest => do
    let (n, isInteger, rest) ← unsignedNumber? rest
    return (if isInteger && n != 0 then .integer (-n) else .decimal, rest)
  | rest => do
    let (n, isInteger, rest) ← unsignedNumber? rest
    return (if isInteger then .integer n else .decimal, rest)

/-- Reads a number or one of the words `null`, `true` and `false`. -/
def simpleValue? (s : List Char) : Option (Json × List Char) :=
  match s with
  | 'n' :: 'u' :: 'l' :: 'l' :: rest => some (.null, rest)
  | 't' :: 'r' :: 'u' :: 'e' :: rest => some (.bool true, rest)
  | 'f' :: 'a' :: 'l' :: 's' :: 'e' :: rest => some (.bool false, rest)
  | rest => number? rest

mutual

/-- Reads a value; `fuel` bounds the steps, and `strict` is for the member names of an object. -/
def value? (fuel : Nat) (strict : Bool) (s : List Char) : Option (Json × List Char) :=
  match fuel with
  | 0 => none
  | fuel + 1 =>
    match skipSpace s with
    | '\x7b' :: rest =>
      match skipSpace rest with
      | '\x7d' :: rest => some (.object [], rest)
      | rest => (members? fuel strict rest).map fun (ms, rest) => (.object ms, rest)
    | '[' :: rest =>
      match skipSpace rest with
      | ']' :: rest => some (.array [], rest)
      | rest => (items? fuel rest).map fun (xs, rest) => (.array xs, rest)
    | '"' :: rest => (string? false rest).map fun (t, rest) => (.string t, rest)
    | rest => simpleValue? rest

/-- Reads the items of an array, of which there is at least one, and its closing bracket. -/
def items? (fuel : Nat) (s : List Char) : Option (List Json × List Char) :=
  match fuel with
  | 0 => none
  | fuel + 1 =>
    match value? fuel false s with
    | none => none
    | some (x, rest) =>
      match skipSpace rest with
      | ']' :: rest => some ([x], rest)
      | ',' :: rest => (items? fuel rest).map fun (xs, rest) => (x :: xs, rest)
      | _ => none

/-- Reads the members of an object, of which there is at least one, and its closing brace. -/
def members? (fuel : Nat) (strict : Bool) (s : List Char) :
    Option (List (String × Json) × List Char) :=
  match fuel with
  | 0 => none
  | fuel + 1 =>
    match skipSpace s with
    | '"' :: rest =>
      match string? strict rest with
      | none => none
      | some (name, rest) =>
        match skipSpace rest with
        | ':' :: rest =>
          match value? fuel false rest with
          | none => none
          | some (x, rest) =>
            match skipSpace rest with
            | '\x7d' :: rest => some ([(name, x)], rest)
            | ',' :: rest =>
              (members? fuel strict rest).map fun (ms, rest) => ((name, x) :: ms, rest)
            | _ => none
        | _ => none
    | _ => none

end

/-- The value that a text states.  A step of the readers takes at least one character for every two
calls, so twice the length is fuel enough. -/
def parse? (text : String) : Option Json :=
  let s := text.toList
  match value? (2 * s.length + 2) true s with
  | some (x, rest) => if (skipSpace rest).isEmpty then some x else none
  | none => none

end WordMachine.Json
