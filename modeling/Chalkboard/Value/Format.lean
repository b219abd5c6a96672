import Chalkboard.Number.Numeric
import Chalkboard.Value.Basic

/-! Formats: a text with places to fill, each a percent sign and a conversion. One value fills one
place; a value left over, or a place left empty, is a misuse. Two percent signs side by side stand for
one. -/

namespace Chalkboard

def Value.numeric? : Value → Option Numeric
  | .bool b => some (.whole (if b then 1 else 0))
  | .int i => some (.whole i)
  | .real x => some (.real x)
  | _ => none

/-- How a place is to be filled. -/
structure Place where
  leftward : Bool := false
  signed : Bool := false
  spaced : Bool := false
  marked : Bool := false
  zeros : Bool := false
  width : Nat := 0
  precision : Option Nat := none

namespace Place

def widest : Nat := Number.twoTo 63 - 1

def finest : Nat := Number.twoTo 31 - 1

/-- Whole numbers are filled up with zeros a little less far. -/
def finestWhole : Nat := finest - 3

def longest : Nat := Number.twoTo 30

def flag (p : Place) : Char → Option Place
  | '-' => some { p with leftward := true }
  | '+' => some { p with signed := true }
  | ' ' => some { p with spaced := true }
  | '#' => some { p with marked := true }
  | '0' => some { p with zeros := true }
  | _ => none

/-- Puts a sign, a mark and a body together and fills them up to the width. -/
def layOut (p : Place) (numeric : Bool) (sign mark body : List Char) : List Char :=
  let sign := if !sign.isEmpty || !numeric then sign
    else if p.signed then ['+'] else if p.spaced then [' '] else []
  let missing := p.width - (sign.length + mark.length + body.length)
  if p.leftward then sign ++ mark ++ body ++ List.replicate missing ' '
  else if numeric && p.zeros then sign ++ mark ++ List.replicate missing '0' ++ body
  else List.replicate missing ' ' ++ sign ++ mark ++ body

def textual (p : Place) (s : String) : List Char :=
  p.layOut false [] [] (match p.precision with
    | some n => s.toList.take n
    | none => s.toList)

def character (p : Place) (c : Char) : List Char := p.layOut false [] [] [c]

def whole (p : Place) (base : Nat) (mark : List Char) (upper : Bool) (i : Int) :
    Except Misuse (List Char) :=
  let precision := p.precision.getD 0
  if finestWhole < precision then .error .overflow
  else if longest < precision then .error .noRoom
  else
    let digits := Number.padLeft precision '0' (Nat.toDigits base i.natAbs)
    let digits := if upper then digits.map Char.toUpper else digits
    .ok (p.layOut true (if i < 0 then ['-'] else []) (if p.marked then mark else []) digits)

/-- In decimal a number must not be too long, whatever the place. -/
def decimal (p : Place) (i : Int) : Except Misuse (List Char) :=
  if p.precision.getD 0 ≤ finestWhole && (Number.wholeText? i).isNone then .error .numeral
  else p.whole 10 [] false i

/-- A real has no more digits than these behind the point, nor significant ones. -/
def mostPlaces : Nat := 1100

/-- The digits of `n / d`, a real, with so many places behind the point. -/
def fixedDigits (n d places : Nat) (keepPoint : Bool) : List Char :=
  let near := min places mostPlaces
  let digits :=
    Number.padLeft (near + 1) '0' (Nat.toDigits 10 (Number.roundHalfEven (n * Number.tenTo near) d))
  let whole := digits.take (digits.length - near)
  let part := digits.drop (digits.length - near) ++ List.replicate (places - near) '0'
  if part.isEmpty && !keepPoint then whole else whole ++ '.' :: part

/-- `n / d`, a real, to so many significant digits, and the decimal exponent of the first. -/
def significant (n d count : Nat) : List Char × Int :=
  if n == 0 then (List.replicate count '0', 0)
  else
    let near := min count mostPlaces
    let point := Number.pointOf n d
    let (a, b) := Number.powerOfTen (point - near)
    let digits := Nat.toDigits 10 (Number.roundHalfEven (n * b) (d * a))
    (digits.take near ++ List.replicate (count - near) '0', point - 1 + (digits.length - near))

def exponentText (e : Int) : List Char :=
  'e' :: (if e < 0 then '-' else '+') :: Number.padLeft 2 '0' (Nat.toDigits 10 e.natAbs)

def scientific (n d places : Nat) (keepPoint : Bool) : List Char :=
  let (digits, e) := significant n d (places + 1)
  let part := digits.drop 1
  digits.take 1 ++ (if part.isEmpty && !keepPoint then [] else '.' :: part) ++ exponentText e

/-- So many significant digits, without trailing zeros unless they are asked for, positional while
the exponent allows. -/
def general (n d count : Nat) (keep : Bool) : List Char :=
  let count := max count 1
  let (digits, e) := significant n d count
  let digits := if keep then digits else
    match Number.dropZeros digits with
    | [] => ['0']
    | ds => ds
  if -4 ≤ e && e < count then
    if e < 0 then '0' :: '.' :: (List.replicate (e.natAbs - 1) '0' ++ digits)
    else
      let whole := digits.take (e.toNat + 1)
      let part := digits.drop (e.toNat + 1)
      whole ++ List.replicate (e.toNat + 1 - whole.length) '0' ++
        (if part.isEmpty && !keep then [] else '.' :: part)
  else
    let part := digits.drop 1
    digits.take 1 ++ (if part.isEmpty && !keep then [] else '.' :: part) ++ exponentText e

def real (p : Place) (style : Char) (x : Float) : List Char :=
  let upper := style.isUpper
  let shape (negative : Bool) (body : List Char) : List Char :=
    p.layOut true (if negative then ['-'] else []) [] (if upper then body.map Char.toUpper else body)
  match Number.exact x with
  | .undefined => shape false ['n', 'a', 'n']
  | .infinite negative => shape negative ['i', 'n', 'f']
  | .finite negative mantissa exponent =>
    let (n, d) := Number.scaled mantissa 1 exponent
    let places := p.precision.getD 6
    shape negative <|
      match style.toLower with
      | 'f' => fixedDigits n d places p.marked
      | 'e' => scientific n d places p.marked
      | _ => general n d places p.marked

def asciiOnly (s : String) : String :=
  String.ofList (s.toList.flatMap fun c => if c.toNat < 128 then [c] else Text.hexEscape c)

def convert (p : Place) (letter : Char) (v : Value) : Except Misuse (List Char) :=
  match letter with
  | 's' => v.plain.map p.textual
  | 'r' => v.display.map p.textual
  | 'a' => v.display.map fun s => p.textual (asciiOnly s)
  | 'd' | 'i' | 'u' =>
    match v.numeric? with
    | some (.whole i) => p.decimal i
    | some (.real x) =>
      match Number.truncate? x with
      | some i => p.decimal i
      | none => .error (if Number.exact x == .undefined then .format else .overflow)
    | none => .error .operands
  | 'x' | 'X' | 'o' =>
    match v.numeric? with
    | some (.whole i) =>
      if letter == 'o' then p.whole 8 ['0', 'o'] false i
      else p.whole 16 ['0', letter] (letter == 'X') i
    | _ => .error .operands
  | 'e' | 'E' | 'f' | 'F' | 'g' | 'G' =>
    match v.numeric? with
    | some (.whole i) =>
      match Number.ofInt? i with
      | some x => .ok (p.real letter x)
      | none => .error .overflow
    | some (.real x) => .ok (p.real letter x)
    | none => .error .operands
  | 'c' =>
    match v, v.numeric? with
    | .text s, _ => match s.toList with
      | [c] => .ok (p.character c)
      | _ => .error .operands
    | _, some (.whole i) =>
      if 0 ≤ i && i < 0x110000 then .ok (p.character (Char.ofNat i.toNat)) else .error .overflow
    | _, _ => .error .operands
  | _ => .error .format

def take? : Option Value → Except Misuse Value
  | some v => .ok v
  | none => .error .operands

def readFlags (p : Place) : List Char → Place × List Char
  | [] => (p, [])
  | c :: cs =>
    match p.flag c with
    | some q => readFlags q cs
    | none => (p, c :: cs)

/-- A number, or a star that takes the number from the waiting value. A number beyond the greatest is
refused. -/
def readCount (greatest : Nat) (waiting : Option Value) :
    List Char → Except Misuse (Option Int × Option Value × List Char)
  | '*' :: cs => do
    match (← take? waiting).numeric? with
    | some (.whole i) =>
      if -(greatest : Int) ≤ i + 1 && i ≤ greatest then return (some i, none, cs) else throw .overflow
    | _ => throw .operands
  | cs =>
    let digits := cs.takeWhile Char.isDigit
    let n := digits.foldl (fun n c => 10 * n + (c.toNat - '0'.toNat)) 0
    if digits.isEmpty then .ok (none, waiting, cs)
    else if greatest < n then .error .format
    else .ok (some (n : Int), waiting, cs.dropWhile Char.isDigit)

/-- The part of a place behind the percent sign: its filling, the value still waiting and the rest. -/
def fill (waiting : Option Value) (cs : List Char) :
    Except Misuse (List Char × Option Value × List Char) := do
  if cs.head? == some '(' then throw .operands
  let (p, cs) := readFlags {} cs
  let (width, waiting, cs) ← readCount widest waiting cs
  let p := match width with
    | some w => { p with width := w.natAbs, leftward := p.leftward || w < 0 }
    | none => p
  let (p, waiting, cs) ← match cs with
    | '.' :: cs => do
      let (precision, waiting, cs) ← readCount finest waiting cs
      pure ({ p with precision := some ((precision.getD 0).toNat) }, waiting, cs)
    | cs => pure (p, waiting, cs)
  let cs := match cs with
    | c :: r => if c == 'h' || c == 'l' || c == 'L' then r else c :: r
    | [] => []
  match cs with
  | [] => throw .format
  | letter :: cs =>
    let v ← take? waiting
    if longest < p.width then
      let _ ← { p with width := 0 }.convert letter v
      throw .noRoom
    return (← p.convert letter v, none, cs)

/-- Fills the places from left to right. Each turn uses up at least one character. -/
def fillAll (waiting : Option Value) (done : List Char) : Nat → List Char → Except Misuse (List Char)
  | _, [] => if waiting.isSome then .error .operands else .ok done
  | 0, _ => .ok done
  | fuel + 1, '%' :: '%' :: cs => fillAll waiting (done ++ ['%']) fuel cs
  | fuel + 1, '%' :: cs => do
    let (filled, waiting, cs) ← fill waiting cs
    fillAll waiting (done ++ filled) fuel cs
  | fuel + 1, c :: cs => fillAll waiting (done ++ [c]) fuel cs

end Place

def Value.formatted (format : String) (v : Value) : Except Misuse String :=
  (Place.fillAll (some v) [] format.length format.toList).map String.ofList

end Chalkboard
