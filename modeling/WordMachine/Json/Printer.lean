import WordMachine.Json.Basic
import WordMachine.Text.Numeral

/-!
# Printing JSON

A value is printed over several lines: every item and every member stands on a line of its own, two
spaces deeper than the line that opens its array or object.  An empty array or object is a pair of
brackets.
-/

namespace WordMachine.Json

/-- How a string shows a character: quotes, backslashes and controls are escaped. -/
def escapeChar (c : Char) : List Char :=
  match c with
  | '"' => ['\\', '"']
  | '\\' => ['\\', '\\']
  | '\x08' => ['\\', 'b']
  | '\x0c' => ['\\', 'f']
  | '\n' => ['\\', 'n']
  | '\r' => ['\\', 'r']
  | '\t' => ['\\', 't']
  | c => if c.toNat < 0x20 then ['\\', 'u'] ++ (Text.hexPadded 4 c.toNat).toList else [c]

def quoted (s : String) : String :=
  String.ofList ('"' :: s.toList.flatMap escapeChar ++ ['"'])

/-- The start of a line at a depth. -/
def newLine (depth : Nat) : String := String.ofList ('\n' :: List.replicate (2 * depth) ' ')

mutual

/-- A value whose first line stands at a depth. -/
def render (depth : Nat) : Json → String
  | .null => "null"
  | .bool b => if b then "true" else "false"
  | .integer i => Text.decimal i
  | .decimal => "0.0"
  | .string s => quoted s
  | .array [] => "[]"
  | .array (x :: xs) =>
    "[" ++ newLine (depth + 1) ++ render (depth + 1) x ++ renderItems (depth + 1) xs ++
      newLine depth ++ "]"
  | .object [] => "\x7b\x7d"
  | .object ((name, x) :: members) =>
    "\x7b" ++ newLine (depth + 1) ++ quoted name ++ ": " ++ render (depth + 1) x ++
      renderMembers (depth + 1) members ++ newLine depth ++ "\x7d"

/-- The items of an array after the first. -/
def renderItems (depth : Nat) : List Json → String
  | [] => ""
  | x :: xs => "," ++ newLine depth ++ render depth x ++ renderItems depth xs

/-- The members of an object after the first. -/
def renderMembers (depth : Nat) : List (String × Json) → String
  | [] => ""
  | (name, x) :: members =>
    "," ++ newLine depth ++ quoted name ++ ": " ++ render depth x ++ renderMembers depth members

end

def pretty (x : Json) : String := render 0 x

end WordMachine.Json
