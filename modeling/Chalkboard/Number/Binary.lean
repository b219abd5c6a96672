/-! Reals are binary64 numbers. Here a number is taken apart into the fraction it stands for, and a
fraction is put back as the nearest number, a half going to the even neighbour. All comparisons and
remainders between whole numbers and reals go through the fractions, so they are exact. -/

namespace Chalkboard.Number

def twoTo (k : Nat) : Nat := Nat.pow 2 k

def tenTo (k : Nat) : Nat := Nat.pow 10 k

/-- What a binary64 number stands for: `± mantissa · 2 ^ exponent`, an infinity, or nothing. -/
inductive Exact where
  | finite (negative : Bool) (mantissa : Nat) (exponent : Int)
  | infinite (negative : Bool)
  | undefined
  deriving DecidableEq, Repr

def exact (x : Float) : Exact :=
  let bits := x.toBits.toNat
  let negative := bits / twoTo 63 == 1
  let field : Nat := bits / twoTo 52 % twoTo 11
  let fraction := bits % twoTo 52
  if field == 2047 then
    if fraction == 0 then .infinite negative else .undefined
  else if field == 0 then .finite negative fraction (-1074)
  else .finite negative (twoTo 52 + fraction) (field - 1075)

/-- The bits of positive infinity: an encoding at or above them is too large. -/
def infinityBits : Nat := 2047 * twoTo 52

/-- `n / d` to the nearest whole number, a half to the even one. -/
def roundHalfEven (n d : Nat) : Nat :=
  let q := n / d
  let r := n % d
  if 2 * r < d then q else if d < 2 * r then q + 1 else q + q % 2

def scaled (n d : Nat) (shift : Int) : Nat × Nat :=
  if shift < 0 then (n, d * twoTo shift.natAbs) else (n * twoTo shift.natAbs, d)

/-- The encoding of the binary64 number nearest to `n / d`. The exponent is the one that leaves a
mantissa of 53 bits, but never below the least one; a mantissa that rounds up to 54 bits carries into
the exponent by itself. The result is at least `infinityBits` when the fraction is too large. -/
def nearestBits (n d : Nat) : Nat :=
  if n == 0 then 0
  else
    let estimate : Int := (n.log2 : Int) - d.log2 - 52
    let (a, b) := scaled n d (-estimate)
    let exponent := max (if a < twoTo 52 * b then estimate - 1 else estimate) (-1074)
    let (a, b) := scaled n d (-exponent)
    (exponent + 1074).toNat * twoTo 52 + roundHalfEven a b

def withSign (negative : Bool) (bits : Nat) : Float :=
  Float.ofBits (UInt64.ofNat (if negative then twoTo 63 + bits else bits))

def nearest? (negative : Bool) (n d : Nat) : Option Float :=
  let bits := nearestBits n d
  if bits < infinityBits then some (withSign negative bits) else none

def infinity : Float := withSign false infinityBits

def nan : Float := Float.ofBits 0x7ff8000000000000

def ofInt? (i : Int) : Option Float := nearest? (decide (i < 0)) i.natAbs 1

/-- The real nearest to `a / b` for a nonzero `b`, unless it is too large. A zero takes the sign of
the quotient. -/
def quotient? (a b : Int) : Option Float :=
  nearest? ((decide (a < 0)) != (decide (b < 0))) a.natAbs b.natAbs

/-- `± digits · 10 ^ scale`, rounded; what is too large becomes an infinity. -/
def ofDecimal (negative : Bool) (digits : Nat) (scale : Int) : Float :=
  let size : Int := (Nat.toDigits 10 digits).length + scale
  if digits == 0 || size < -400 then withSign negative 0
  else if 400 < size then withSign negative infinityBits
  else
    let bits :=
      if scale < 0 then nearestBits digits (tenTo scale.natAbs)
      else nearestBits (digits * tenTo scale.natAbs) 1
    withSign negative (min bits infinityBits)

def fraction (negative : Bool) (mantissa : Nat) (exponent : Int) : Int × Nat :=
  let (n, d) := scaled mantissa 1 exponent
  (if negative then -(n : Int) else n, d)

/-- The order of a whole number and a real; none when the real is undefined. -/
def compareInt (i : Int) (x : Float) : Option Ordering :=
  match exact x with
  | .undefined => none
  | .infinite negative => some (if negative then .gt else .lt)
  | .finite negative mantissa exponent =>
    let (n, d) := fraction negative mantissa exponent
    some (compare (i * d) n)

def isNegative (x : Float) : Bool :=
  match exact x with
  | .finite negative .. | .infinite negative => negative
  | .undefined => false

def isZero (x : Float) : Bool :=
  match exact x with
  | .finite _ 0 _ => true
  | _ => false

def truncatedRemainder (x y : Float) : Float :=
  match exact x, exact y with
  | .finite negative m e, .finite _ m' e' =>
    let (a, b) := scaled m 1 e
    let (c, d) := scaled m' 1 e'
    -- over the common denominator `b * d`
    (nearest? negative (a * d % (c * b)) (b * d)).getD nan
  | .finite .., .infinite _ => x
  | _, _ => nan

/-- The remainder that has the sign of the divisor `y`, which is not zero. -/
def remainder (x y : Float) : Float :=
  let r := truncatedRemainder x y
  if isZero r then withSign (isNegative y) 0
  else if (y < 0) != (r < 0) then r + y
  else r

def truncate? (x : Float) : Option Int :=
  match exact x with
  | .finite negative mantissa exponent =>
    let (n, d) := fraction negative mantissa exponent
    some (n.tdiv d)
  | _ => none

end Chalkboard.Number
