import WordMachine.Text.Blank

/-!
# Cutting a text into pieces

`pieces` cuts at every separator and keeps empty pieces; no piece holds a separator
(`not_sep_of_mem_pieces`).  `tokens` keeps the pieces that are not empty, and `lines` cuts at line
feeds.
-/

namespace WordMachine.Text

/-- The pieces of a text between separators, empty ones included. -/
def pieces (sep : Char → Bool) : List Char → List (List Char)
  | [] => [[]]
  | c :: cs =>
    if sep c then [] :: pieces sep cs
    else
      match pieces sep cs with
      | [] => [[c]]
      | p :: ps => (c :: p) :: ps

/-- The pieces of a text between separators that are not empty. -/
def tokens (sep : Char → Bool) (s : List Char) : List (List Char) :=
  (pieces sep s).filter fun p => !p.isEmpty

/-- A line without the carriage return that stood just before its line feed; `rev` is the line in
reverse. -/
def endLine (rev : List Char) : List Char :=
  match rev with
  | '\r' :: rest => rest.reverse
  | rest => rest.reverse

/-- The lines that remain to be read after the characters `rev` (in reverse) of the current one. -/
def linesFrom (rev : List Char) : List Char → List (List Char)
  | [] => if rev.isEmpty then [] else [rev.reverse]
  | c :: cs => if c = '\n' then endLine rev :: linesFrom [] cs else linesFrom (c :: rev) cs

/-- The lines of a text.  A line feed ends a line, together with a carriage return before it, and
an empty last line does not count. -/
def lines (s : List Char) : List (List Char) := linesFrom [] s

theorem pieces_ne_nil (sep : Char → Bool) (s : List Char) : pieces sep s ≠ [] := by
  cases s with
  | nil => simp [pieces]
  | cons c cs =>
    unfold pieces
    split
    · simp
    · split <;> simp

/-- No piece holds a separator. -/
theorem not_sep_of_mem_pieces {sep : Char → Bool} {s p : List Char} (hp : p ∈ pieces sep s) :
    ∀ c ∈ p, sep c = false := by
  induction s generalizing p with
  | nil => simp_all [pieces]
  | cons d ds ih =>
    unfold pieces at hp
    split at hp
    · rcases List.mem_cons.1 hp with rfl | hp
      · simp
      · exact ih hp
    · next hd =>
      split at hp
      · next he => exact absurd he (pieces_ne_nil sep ds)
      · next q qs he =>
        rcases List.mem_cons.1 hp with rfl | hp
        · intro c hc
          rcases List.mem_cons.1 hc with rfl | hc
          · simpa using hd
          · exact ih (he ▸ List.mem_cons_self) c hc
        · exact ih (he ▸ List.mem_cons_of_mem q hp)

/-- A text without separators is its own single piece. -/
theorem pieces_of_not_sep {sep : Char → Bool} {s : List Char} (h : ∀ c ∈ s, sep c = false) :
    pieces sep s = [s] := by
  induction s with
  | nil => rfl
  | cons c cs ih =>
    have hc := h c List.mem_cons_self
    have := ih fun d hd => h d (List.mem_cons_of_mem c hd)
    simp [pieces, hc, this]

end WordMachine.Text
