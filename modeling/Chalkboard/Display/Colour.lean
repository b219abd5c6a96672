/-! Colours of a terminal. -/

namespace Chalkboard.Display

inductive Colour where
  | header
  | blue
  | cyan
  | green
  deriving DecidableEq, Repr

def Colour.start : Colour → String
  | header => "\x1b[95m"
  | blue => "\x1b[94m"
  | cyan => "\x1b[96m"
  | green => "\x1b[92m"

def colourEnd : String := "\x1b[0m"

end Chalkboard.Display
