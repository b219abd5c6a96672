import Chalkboard.Value.Basic

/-! The geometry of arrows, in exact numbers; heights grow downwards. -/

namespace Chalkboard.Picture

structure Point where
  x : Rat
  y : Rat
  deriving DecidableEq, Repr

structure Line where
  start : Point
  stop : Point
  deriving DecidableEq, Repr

/-- The corner of a crossing that a rounding lies in. -/
inductive Quadrant where
  | upperLeft
  | upperRight
  | lowerLeft
  | lowerRight
  deriving DecidableEq, Repr

namespace Quadrant

def number : Quadrant → Nat
  | upperLeft => 1
  | upperRight => 2
  | lowerLeft => 3
  | lowerRight => 4

def ofNumber? : Int → Option Quadrant
  | 1 => some upperLeft
  | 2 => some upperRight
  | 3 => some lowerLeft
  | 4 => some lowerRight
  | _ => none

def angles : Quadrant → Nat × Nat
  | upperLeft => (0, 90)
  | upperRight => (90, 180)
  | lowerLeft => (270, 360)
  | lowerRight => (180, 270)

/-- The way from the crossing to the centre of the circle, for radius one. -/
def towards : Quadrant → Point
  | upperLeft => ⟨-1, -1⟩
  | upperRight => ⟨1, -1⟩
  | lowerLeft => ⟨-1, 1⟩
  | lowerRight => ⟨1, 1⟩

end Quadrant

/-- A quarter circle in place of the corner where two lines cross. -/
structure Chamfer where
  corner : Point
  quadrant : Quadrant
  radius : Rat
  deriving DecidableEq, Repr

namespace Chamfer

def make (corner : Point) (quadrant : Int) (radius : Rat) : Except Fault Chamfer :=
  match Quadrant.ofNumber? quadrant with
  | some q => .ok ⟨corner, q, radius⟩
  | none => .error (.misuse .wrongPart)

def delta (c : Chamfer) : Point :=
  ⟨c.quadrant.towards.x * c.radius, c.quadrant.towards.y * c.radius⟩

def centre (c : Chamfer) : Point := ⟨c.corner.x + c.delta.x, c.corner.y + c.delta.y⟩

def box (c : Chamfer) : Line :=
  ⟨⟨c.centre.x - c.radius, c.centre.y - c.radius⟩, ⟨c.centre.x + c.radius, c.centre.y + c.radius⟩⟩

end Chamfer

/-- Two heights, the upper one first. -/
def inOrder (y z : Rat) : Rat × Rat := if y ≤ z then (y, z) else (z, y)

/-- An arrow that leaves to the right, goes up or down at some distance and comes back. -/
structure CurvedArrow where
  start : Point
  stop : Point
  offset : Rat
  radius : Rat
  colour : Value

namespace CurvedArrow

def usualRadius : Rat := 8

def endsBelow (a : CurvedArrow) : Bool := a.start.y < a.stop.y

def height (a : CurvedArrow) : Rat := a.stop.y - a.start.y

def firstCorner (a : CurvedArrow) : Point := ⟨a.start.x + a.offset, a.start.y⟩

def secondCorner (a : CurvedArrow) : Point := ⟨a.start.x + a.offset, a.stop.y⟩

def chamfers (a : CurvedArrow) : Option (Chamfer × Chamfer) :=
  if a.radius > 0 then
    let (first, second) := if a.endsBelow then (Quadrant.lowerLeft, Quadrant.upperLeft)
      else (Quadrant.upperLeft, Quadrant.lowerLeft)
    some (⟨a.firstCorner, first, a.radius⟩, ⟨a.secondCorner, second, a.radius⟩)
  else none

def lines (a : CurvedArrow) : List Line :=
  let (d, e) : Point × Point := match a.chamfers with
    | some (c, c') => (c.delta, c'.delta)
    | none => (⟨0, 0⟩, ⟨0, 0⟩)
  let p := a.firstCorner
  let q := a.secondCorner
  [⟨a.start, ⟨p.x + d.x, p.y⟩⟩, ⟨⟨p.x, p.y + d.y⟩, ⟨q.x, q.y + e.y⟩⟩, ⟨⟨q.x + e.x, q.y⟩, a.stop⟩]

def range (a : CurvedArrow) : Rat × Rat := inOrder a.start.y a.stop.y

def meets (a : CurvedArrow) (y z : Rat) : Bool :=
  let other := inOrder y z
  !(a.range.2 < other.1 || a.range.1 > other.2)

end CurvedArrow

def elbow (p : Point) (length : Rat) : List Line :=
  let corner : Point := ⟨p.x + length, p.y⟩
  [⟨p, corner⟩, ⟨corner, ⟨corner.x, corner.y + length⟩⟩]

def stub (p : Point) (length : Rat) : List Line :=
  let stop : Point := ⟨p.x + length, p.y⟩
  [⟨p, stop⟩, ⟨p, stop⟩]

end Chalkboard.Picture
