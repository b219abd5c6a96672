import Chalkboard.Number.Binary

/-! Numbers as arithmetic meets them: whole ones without a bound, and reals. Where both meet the whole
one becomes the nearest real, if it is not too large for one. Comparisons are exact. -/

namespace Chalkboard

inductive Numeric where
  | whole (i : Int)
  | real (x : Float)
  deriving DecidableEq

namespace Numeric

def order : Numeric → Numeric → Option Ordering
  | .whole i, .whole j => some (compare i j)
  | .whole i, .real y => Number.compareInt i y
  | .real x, .whole j => (Number.compareInt j x).map Ordering.swap
  | .real x, .real y =>
    if x < y then some .lt else if y < x then some .gt else if x == y then some .eq else none

def toReal? : Numeric → Option Float
  | .whole i => Number.ofInt? i
  | .real x => some x

def plus? : Numeric → Numeric → Option Numeric
  | .whole i, .whole j => some (.whole (i + j))
  | a, b => return .real ((← a.toReal?) + (← b.toReal?))

/-- The nearest whole number, halves to the even neighbour; none is near an infinity. -/
def rounded : Numeric → Int
  | .whole i => i
  | .real x =>
    match Number.exact x with
    | .finite negative mantissa exponent =>
      let (n, d) := Number.fraction negative mantissa exponent
      if n < 0 then -(Number.roundHalfEven n.natAbs d : Int) else Number.roundHalfEven n.natAbs d
    | _ => 0

def truncated : Numeric → Int
  | .whole i => i
  | .real x => (Number.truncate? x).getD 0

end Numeric

end Chalkboard
