import Chalkboard.Picture.Marks

/-! The panel that shows the code, with the marked lines. -/

namespace Chalkboard.Picture

structure CodePanel where
  background : Value
  previous : Option Numeric := none
  next : Option Numeric := none
  position : Option (Numeric × Numeric) := none

namespace CodePanel

/-- A panel with a background of its own, unless that is empty, or the usual one. -/
def make (t : Theme) (background : Value) : CodePanel :=
  ⟨if background.truthy then background else t.codeBackground, none, none, none⟩

def markNext (p : CodePanel) (line : Option Numeric) : CodePanel :=
  { p with previous := p.next, next := line }

def marks (p : CodePanel) : List (Numeric × Mark) := Picture.marks p.next p.previous

def shownBackground (t : Theme) (p : CodePanel) : Value :=
  match t.codeStyle with
  | .text "ayed" | .text "ayed2" => p.background
  | _ => .absent

def extent : Numeric := .whole 10

def stop (p : CodePanel) : Except Fault (Numeric × Numeric) :=
  match p.position with
  | some (x, y) =>
    match x.plus? extent, y.plus? extent with
    | some x, some y => .ok (x, y)
    | _, _ => .error (.misuse .overflow)
  | none => .error (.misuse .noPosition)

def place (p : CodePanel) : Except Fault (Int × Int) :=
  match p.position with
  | some (x, y) => .ok (x.rounded, y.rounded)
  | none => .error (.misuse .missingPart)

end CodePanel

end Chalkboard.Picture
