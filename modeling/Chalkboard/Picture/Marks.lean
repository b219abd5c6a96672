import Chalkboard.Picture.Theme

/-! Marked lines of the code: the one just done and the one that comes next. -/

namespace Chalkboard.Picture

inductive Mark where
  | previous
  | next
  deriving DecidableEq, Repr

def Mark.name : Mark → String
  | previous => "prev"
  | next => "next"

def Theme.markColour (t : Theme) : Mark → Value
  | .previous => t.previousLine
  | .next => t.nextLine

/-- The marked lines from the top down. On one and the same line the previous one is marked first. -/
def marks (next previous : Option Numeric) : List (Numeric × Mark) :=
  match next, previous with
  | none, none => []
  | none, some p => [(p, .previous)]
  | some n, none => [(n, .next)]
  | some n, some p =>
    if n.order p == some .lt then [(n, .next), (p, .previous)] else [(p, .previous), (n, .next)]

def markColours (t : Theme) (common : Value) (marks : List (Numeric × Mark)) (count : Nat) :
    List Value :=
  (marks.map (t.markColour ·.2) ++ List.replicate count common).take count

end Chalkboard.Picture
