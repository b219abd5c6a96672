import Chalkboard.Picture.Theme

/-! Captions: texts in a picture. Some can be lit, to show that they are new. -/

namespace Chalkboard.Picture

structure Caption where
  text : String
  font : Value
  size : Value
  x : Value := .int 0
  y : Value := .int 0
  colour : Value := .absent
  /-- Whether it is lit, if it can be. -/
  lit : Option Bool := none

/-- How a caption is drawn. -/
structure Look where
  fill : Value
  outline : Value := .absent
  width : Value := .absent

namespace Caption

def usualFont : Value := .text "Monospace"

def usualSize (t : Theme) : Except Misuse Value := t.fontSize.mul t.scale

def light (c : Caption) : Caption := { c with lit := c.lit.map fun _ => true }

def look (t : Theme) (c : Caption) : Look :=
  if c.lit.getD false then ⟨t.glow, t.glowOutline, t.glowWidth⟩
  else { fill := c.colour }

/-- A drawn caption loses its light, where the theme says so. -/
def drawn (t : Theme) (c : Caption) : Caption :=
  if t.fades then { c with lit := c.lit.map fun _ => false } else c

end Caption

end Chalkboard.Picture
