/-! Classes of characters given by ranges of code points. -/

namespace Chalkboard.Text

def inRanges (ranges : List (Nat × Nat)) (c : Char) : Bool :=
  ranges.any fun (low, high) => low ≤ c.toNat && c.toNat ≤ high

/-- Ranges in order, told by distances: how far each starts behind the end of the one before it, and how far it
goes from there. -/
def rangesFrom (last : Nat) : List Nat → List (Nat × Nat)
  | gap :: span :: rest => (last + gap, last + gap + span) :: rangesFrom (last + gap + span) rest
  | _ => []

end Chalkboard.Text
