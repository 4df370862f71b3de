import WordMachine.Text.Hidden
import WordMachine.Text.Numeral

/-!
# Quoted text

A text is quoted for messages: it stands between double quotes, a backslash and a double quote are
marked by a backslash, four controls have letters, and any other hidden character is shown by its
number.  A single quote is an ordinary character.
-/

namespace WordMachine.Text

/-- How a quoted text shows a character. -/
def quoteChar (c : Char) : List Char :=
  match c with
  | '\x00' => ['\\', '0']
  | '\t' => ['\\', 't']
  | '\n' => ['\\', 'n']
  | '\r' => ['\\', 'r']
  | '"' => ['\\', '"']
  | '\\' => ['\\', '\\']
  | c => if isHidden c then "\\u\x7b".toList ++ (hex c.toNat).toList ++ ['\x7d'] else [c]

def quote (s : String) : String :=
  String.ofList ('"' :: s.toList.flatMap quoteChar ++ ['"'])

end WordMachine.Text
