import Chalkboard.Picture.Arrow
import Chalkboard.Report.Value

/-! Reports of arrows and their parts. -/

namespace Chalkboard.Picture

/-- A number, told in some way if it is whole and else as a fraction. -/
def numberOr (whole : Int → Report) (q : Rat) : Report :=
  if q.den == 1 then whole q.num else .text s!"{q.num}/{q.den}"

instance : Reported Rat := ⟨numberOr report⟩

instance : Reported Point := ⟨fun p => .list ([p.x, p.y].map (numberOr .whole))⟩

instance : Reported Line :=
  ⟨fun l => .list ([l.start.x, l.start.y, l.stop.x, l.stop.y].map (numberOr .whole))⟩

instance : Reported Chamfer :=
  ⟨fun c => .fields [("at", report c.corner), ("quadrant", report c.quadrant.number),
    ("center", report c.centre), ("angles", report c.quadrant.angles), ("delta", report c.delta)]⟩

def CurvedArrow.arcs (a : CurvedArrow) : List (Option Chamfer) :=
  match a.chamfers with
  | some (c, d) => [some c, some d]
  | none => [none, none]

instance : Reported CurvedArrow :=
  ⟨fun a => .fields [("offset", report a.offset), ("below", report a.endsBelow),
    ("height", report a.height), ("color", a.colour.plainReport), ("arcs", report a.arcs),
    ("lines", report a.lines)]⟩

end Chalkboard.Picture
