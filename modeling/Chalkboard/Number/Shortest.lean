import Chalkboard.Number.Binary

/-! The text of a real: the fewest digits that read back as the same number, the nearest such digits
when there is a choice. The layout is positional while the exponent stays within a range, and has an
exponent part beyond it. -/

namespace Chalkboard.Number

/-- The reals that round to a number, as naturals over one denominator `unit`. -/
structure Interval where
  low : Nat
  value : Nat
  high : Nat
  unit : Nat
  closed : Bool

/-- The points half way to the two neighbours. Below a power of two the neighbour stands closer. -/
def Interval.around (mantissa : Nat) (exponent : Int) : Interval :=
  let (n, d) := scaled 1 1 exponent
  let below := if mantissa == twoTo 52 && exponent != -1074 then 1 else 2
  ⟨(4 * mantissa - below) * n, 4 * mantissa * n, (4 * mantissa + 2) * n, 4 * d, mantissa % 2 == 0⟩

def Interval.holds (i : Interval) (a b k : Nat) : Bool :=
  let x := k * a * i.unit
  if i.closed then i.low * b ≤ x && x ≤ i.high * b else i.low * b < x && x < i.high * b

def powerOfTen (shift : Int) : Nat × Nat :=
  if shift < 0 then (1, tenTo shift.natAbs) else (tenTo shift.natAbs, 1)

/-- How many digits stand before the point of `n / d`; zero or less below a tenth. -/
def pointOf (n d : Nat) : Int :=
  if d ≤ n then (Nat.toDigits 10 (n / d)).length
  else 1 - (Nat.toDigits 10 ((d - 1) / n)).length

/-- The value's neighbour on the grid `10 ^ shift` that lies in the interval, the nearer of two. -/
def Interval.onGrid? (i : Interval) (shift : Int) : Option Nat :=
  let (a, b) := powerOfTen shift
  let floor := i.value * b / (i.unit * a)
  let rest := i.value * b % (i.unit * a)
  let nearer :=
    if 2 * rest < i.unit * a then floor
    else if i.unit * a < 2 * rest then floor + 1
    else floor + floor % 2
  if rest == 0 then some floor
  else
    match i.holds a b floor, i.holds a b (floor + 1) with
    | true, true => some nearer
    | true, false => some floor
    | false, true => some (floor + 1)
    | false, false => none

def dropZeros : List Char → List Char
  | [] => []
  | c :: cs =>
    match dropZeros cs with
    | [] => if c == '0' then [] else [c]
    | r => c :: r

/-- The shortest digits of a positive number, and how many of them stand before the point. Seventeen
digits always suffice. -/
def shortestDigits (mantissa : Nat) (exponent : Int) : List Char × Int :=
  let i := Interval.around mantissa exponent
  let point := pointOf i.value i.unit
  let hit := (List.range 17).findSome? fun (k : Nat) =>
    (i.onGrid? (point - (k + 1 : Nat))).map fun digits => (k + 1, digits)
  match hit with
  | some (count, digits) =>
    let text := Nat.toDigits 10 digits
    -- rounding up may add a digit: 9.99… becomes 10
    (dropZeros text, point + (text.length - count))
  | none => (['0'], 1)

structure Layout where
  least : Int
  most : Int
  exponentWidth : Nat

def layout : Layout := ⟨-4, 15, 2⟩

def padLeft (width : Nat) (fill : Char) (cs : List Char) : List Char :=
  List.replicate (width - cs.length) fill ++ cs

def Layout.write (l : Layout) (digits : List Char) (point : Int) : List Char :=
  let exponent := point - 1
  if l.least ≤ exponent && exponent ≤ l.most then
    if point ≤ 0 then '0' :: '.' :: (List.replicate point.natAbs '0' ++ digits)
    else
      let whole := digits.take point.toNat
      let rest := digits.drop point.toNat
      whole ++ List.replicate (point.toNat - whole.length) '0' ++
        '.' :: (if rest.isEmpty then ['0'] else rest)
  else
    let sign := if exponent < 0 then '-' else '+'
    let mantissa := match digits with
      | d :: e :: ds => d :: '.' :: e :: ds
      | ds => ds
    mantissa ++ 'e' :: sign :: padLeft l.exponentWidth '0' (Nat.toDigits 10 exponent.natAbs)

def realText (x : Float) : String :=
  match exact x with
  | .undefined => "nan"
  | .infinite negative => if negative then "-inf" else "inf"
  | .finite negative mantissa exponent =>
    let body :=
      if mantissa == 0 then ['0', '.', '0']
      else
        let (digits, point) := shortestDigits mantissa exponent
        layout.write digits point
    String.ofList (if negative then '-' :: body else body)

end Chalkboard.Number
