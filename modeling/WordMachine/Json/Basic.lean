/-!
# JSON values

The data format of settings files and of machine-readable reports.  Numbers that are not integers
occur only where their value does not matter, so a value keeps nothing of them.
-/

namespace WordMachine

/-- A JSON value; the members of an object keep their order. -/
inductive Json
  | null
  | bool (b : Bool)
  | integer (i : Int)
  /-- A number with a fraction or an exponent. -/
  | decimal
  | string (s : String)
  | array (items : List Json)
  | object (members : List (String × Json))
  deriving Repr, Inhabited

end WordMachine
