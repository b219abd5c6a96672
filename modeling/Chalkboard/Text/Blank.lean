import Chalkboard.Text.Ranges

/-! Blank characters: spaces, tabs, line and paragraph separators of every script. -/

namespace Chalkboard.Text

def blanks : List (Nat × Nat) :=
  [(0x9, 0xd), (0x1c, 0x20), (0x85, 0x85), (0xa0, 0xa0), (0x1680, 0x1680), (0x2000, 0x200a),
   (0x2028, 0x2029), (0x202f, 0x202f), (0x205f, 0x205f), (0x3000, 0x3000)]

def isBlank (c : Char) : Bool := inRanges blanks c

/-- The control characters that separate files, groups, records and units. -/
def isSeparator (c : Char) : Bool := inRanges [(0x1c, 0x1f)] c

def trimmed (drop : Char → Bool) (cs : List Char) : List Char :=
  ((cs.dropWhile drop).reverse.dropWhile drop).reverse

end Chalkboard.Text
