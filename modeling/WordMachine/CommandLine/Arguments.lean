/-!
# Arguments

The arguments of a command are options and positional arguments in any order.  An option starts
with two dashes; its value is the next argument or follows an equals sign.  After an argument that
is nothing but two dashes, all arguments are positional.  An argument that starts with a dash and
is not a single dash is never taken for a value or a positional argument.
-/

namespace WordMachine.CommandLine

/-- An option that a command knows. -/
structure OptionSpec where
  name : String
  takesValue : Bool := true
  repeatable : Bool := false

/-- The arguments of a command, sorted out. -/
structure Arguments where
  positional : List String := []
  /-- The options with their values, a flag having an empty one, in the order given. -/
  options : List (String × String) := []
  deriving Repr

/-- Whether an argument starts with a dash but is not just one. -/
def looksLikeOption (arg : String) : Bool := arg.startsWith "-" && arg != "-"

/-- The name of an option argument, without its dashes, and the value after an equals sign. -/
def splitOption (arg : String) : String × Option String :=
  let (name, rest) := (arg.toList.drop 2).span (· != '=')
  (String.ofList name, rest.head?.map fun _ => String.ofList rest.tail)

namespace Arguments

/-- The arguments with one more option in front. -/
def consOption (name value : String) (a : Arguments) : Arguments :=
  { a with options := (name, value) :: a.options }

/-- The arguments with one more positional argument in front. -/
def consPositional (arg : String) (a : Arguments) : Arguments :=
  { a with positional := arg :: a.positional }

/-- Sorts arguments out; there is no result if one is unknown or lacks its value. -/
def scan? (known : List OptionSpec) : List String → Option Arguments
  | [] => some {}
  | arg :: rest =>
    if arg == "--" then some { positional := rest }
    else if arg.startsWith "--" then
      let (name, attached) := splitOption arg
      match known.find? fun o => o.name == name with
      | none => none
      | some o =>
        match o.takesValue, attached, rest with
        | false, none, rest => (scan? known rest).map (consOption name "")
        | false, some _, _ => none
        | true, some value, rest => (scan? known rest).map (consOption name value)
        | true, none, [] => none
        | true, none, value :: rest =>
          if looksLikeOption value then none
          else (scan? known rest).map (consOption name value)
    else if looksLikeOption arg then none
    else (scan? known rest).map (consPositional arg)

def values (a : Arguments) (name : String) : List String :=
  (a.options.filter fun o => o.1 == name).map Prod.snd

/-- The value given to an option, if it was given. -/
def value? (a : Arguments) (name : String) : Option String := (a.values name).head?

/-- Whether no option is given twice, except those that may be. -/
def respectsRepetition (a : Arguments) (known : List OptionSpec) : Bool :=
  known.all fun o => o.repeatable || (a.values o.name).length ≤ 1

/-- The arguments of a command that knows the given options. -/
def parse? (known : List OptionSpec) (args : List String) : Option Arguments :=
  (scan? known args).filter fun a => a.respectsRepetition known

end Arguments

/-- The value of an option that must not be empty; there is no result if it is. -/
def nonEmpty? (value : Option String) : Option (Option String) :=
  match value with
  | some "" => none
  | value => some value

end WordMachine.CommandLine
