import WordMachine.Program
import WordMachine.Text.Numeral

/-!
# Resolving labels

In unresolved code a jump or a call carries the id of a label.  `resolve` replaces it: a jump gets
the distance from its own opcode to the label, a call the position just before the label.  Labels
stay in the code and keep their ids.

Labels are collected first, so a label that stands twice is reported before a reference to a label
that does not stand at all; of several faults of one kind the first in the code is reported.  The
references are read from the unresolved words throughout.
-/

namespace WordMachine

/-- Why labels cannot be resolved. -/
inductive LabelError
  | redefined (id : Word) (position : Nat)
  | undefined (id : Word) (position : Nat)
  | malformed (cause : ProgramError)
  deriving DecidableEq, Repr

def LabelError.message : LabelError → String
  | .redefined id position =>
    "label 0x" ++ Text.hexPadded 8 (Word.bits id).toNat ++ " redefined at word " ++
      toString position
  | .undefined id position =>
    "label 0x" ++ Text.hexPadded 8 (Word.bits id).toNat ++ " used at word " ++
      toString position ++ " is not defined"
  | .malformed cause => cause.message

namespace Label

/-- The labels found so far: the id of each with the position of its opcode. -/
abbrev Targets := List (Word × Nat)

/-- The operand of the instruction at a position, if its operation satisfies a condition. -/
def operandIf? (words : Array Word) (select : Op → Bool) (position : Nat) : Option Word :=
  (words[position]?.bind Op.ofOpcode?).bind fun op =>
    if select op then words[position + 1]? else none

/-- The id of the label at a position, if one stands there. -/
def markerAt? (words : Array Word) (position : Nat) : Option Word :=
  operandIf? words (· == .label) position

/-- The id that the instruction at a position refers to, if it is a jump or a call. -/
def referenceAt? (words : Array Word) (position : Nat) : Option Word :=
  operandIf? words Op.refersToLabel position

/-- Collects the labels at the given instruction starts. -/
def collect (words : Array Word) (known : Targets) : List Nat → Except LabelError Targets
  | [] => .ok known
  | position :: rest =>
    match markerAt? words position with
    | none => collect words known rest
    | some id =>
      if (known.lookup id).isSome then .error (.redefined id position)
      else collect words ((id, position) :: known) rest

/-- The operand that replaces a reference at `position` to the label at `target`. -/
def offset (words : Array Word) (position target : Nat) : Word :=
  if words[position]? = some Op.call.opcode then Word.ofCount target - 1
  else Word.ofCount target - Word.ofCount position

/-- Replaces the references at the given instruction starts in `out`, as `words` states them. -/
def patch (words : Array Word) (known : Targets) (out : Array Word) :
    List Nat → Except LabelError (Array Word)
  | [] => .ok out
  | position :: rest =>
    match referenceAt? words position with
    | none => patch words known out rest
    | some id =>
      match known.lookup id with
      | none => .error (.undefined id position)
      | some target =>
        patch words known (out.setIfInBounds (position + 1) (offset words position target)) rest

/-- The program of unresolved code. -/
def resolve (words : Array Word) : Except LabelError Program :=
  match walk words with
  | .error e => .error (.malformed e)
  | .ok starts =>
    match collect words [] starts with
    | .error e => .error e
    | .ok known => (patch words known words starts).map fun out => ⟨out⟩

end Label

end WordMachine
