/-!
# Splitting

A text is split at every occurrence of a mark, so there is one part more than
there are marks, and parts may be empty.
-/

namespace RuleTree.Text

/-- The parts between the marks. -/
def split (mark : Char) : List Char → List (List Char)
  | [] => [[]]
  | c :: cs =>
    if c = mark then [] :: split mark cs
    else match split mark cs with
      | [] => [[c]]
      | part :: rest => (c :: part) :: rest

theorem split_ne_nil (mark : Char) (cs : List Char) : split mark cs ≠ [] := by
  cases cs with
  | nil => simp [split]
  | cons c cs =>
    rw [split]
    split
    · simp
    · split <;> simp

end RuleTree.Text
