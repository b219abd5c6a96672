import Chalkboard.Picture.Arrow

/-! Arrows inside the heap run in lanes, so that arrows that share a height are told apart. A new
arrow takes the first lane in which it meets no other. -/

namespace Chalkboard.Picture

structure Lanes where
  base : Rat := 10
  step : Rat := 15
  /-- The arrows held, each with the number it was made under. -/
  arrows : List (Nat × CurvedArrow) := []

namespace Lanes

def before (a b : CurvedArrow) : Bool :=
  a.offset < b.offset || (a.offset == b.offset && a.height ≤ b.height)

/-- The offset of an arrow between two heights: it moves on by one lane for each arrow that is in its
way. -/
def freeOffset (l : Lanes) (y z : Rat) : Rat :=
  ((l.arrows.map (·.2)).mergeSort before).foldl
    (fun offset a => if a.offset == offset && a.meets y z then offset + l.step else offset)
    (l.base + l.step)

/-- The colour of a lane; the last one serves all lanes further out. -/
def colourAt (l : Lanes) (colours : List Value) (offset : Rat) : Except Fault Value := do
  if l.step == 0 then throw (.misuse .divisionByZero)
  let away := (offset - l.base) / l.step
  let lane := (Int.tdiv away.num away.den - 1).toNat
  match colours[min lane (colours.length - 1)]? with
  | some colour => return colour
  | none => throw (.misuse .noSuchPart)

def add (l : Lanes) (colours : List Value) (number : Nat) (start stop : Point) :
    Except Fault (CurvedArrow × Lanes) := do
  let offset := l.freeOffset start.y stop.y
  let arrow := ⟨start, stop, offset, CurvedArrow.usualRadius, ← l.colourAt colours offset⟩
  return (arrow, { l with arrows := l.arrows ++ [(number, arrow)] })

def remove (l : Lanes) (number : Nat) : Lanes :=
  { l with arrows := l.arrows.filter (·.1 != number) }

def clear (l : Lanes) : Lanes := { l with arrows := [] }

end Lanes

end Chalkboard.Picture
