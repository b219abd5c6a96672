import Chalkboard.Number.Binary

/-! Whole numbers in decimal. They have no bound as values, but a numeral that is too long is neither
read nor written. -/

namespace Chalkboard.Number

def longestNumeral : Nat := 4300

def wholeText? (i : Int) : Option String :=
  if i.natAbs < tenTo longestNumeral then some (toString i) else none

end Chalkboard.Number
