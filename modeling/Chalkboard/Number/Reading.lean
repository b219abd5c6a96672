import Chalkboard.Number.Whole
import Chalkboard.Text.Blank
import Chalkboard.Text.Digit

/-! Numbers from texts. Digits of every script count, blanks at the ends are dropped (but not the
separators of files, groups, records and units), and an underscore may stand between two digits. -/

namespace Chalkboard.Number

def plainDigits (cs : List Char) : List Char :=
  cs.map fun c => match Text.digitValue? c with
    | some d => Nat.digitChar d
    | none => c

/-- Drops the underscores; none if one of them does not stand between two digits. -/
def dropUnderscores (before : Char) : List Char → Option (List Char)
  | [] => if before == '_' then none else some []
  | '_' :: cs => if before.isDigit then dropUnderscores '_' cs else none
  | c :: cs =>
    if before == '_' && !c.isDigit then none
    else (dropUnderscores c cs).map (c :: ·)

def isMargin (c : Char) : Bool := Text.isBlank c && !Text.isSeparator c

def numeral? (s : String) : Option (List Char) :=
  dropUnderscores ' ' (plainDigits (Text.trimmed isMargin s.toList))

def splitSign : List Char → Bool × List Char
  | '-' :: cs => (true, cs)
  | '+' :: cs => (false, cs)
  | cs => (false, cs)

def digitsValue (cs : List Char) : Nat := cs.foldl (fun n c => 10 * n + (c.toNat - '0'.toNat)) 0

def readInt? (s : String) : Option Int := do
  let (negative, digits) := splitSign (← numeral? s)
  if digits.isEmpty || !digits.all Char.isDigit || longestNumeral < digits.length then none
  else
    let n : Int := digitsValue digits
    some (if negative then -n else n)

def readExponent? : List Char → Option Int
  | [] => some 0
  | e :: cs =>
    let (negative, digits) := splitSign cs
    if (e == 'e' || e == 'E') && !digits.isEmpty && digits.all Char.isDigit then
      let n : Int := digitsValue digits
      some (if negative then -n else n)
    else none

/-- `12.5e3`, `12.`, `.5`, `7`: digits with a point somewhere, then an exponent. -/
def readDecimal? (negative : Bool) (cs : List Char) : Option Float :=
  let whole := cs.takeWhile Char.isDigit
  let (part, tail) := match cs.dropWhile Char.isDigit with
    | '.' :: r => (r.takeWhile Char.isDigit, r.dropWhile Char.isDigit)
    | r => ([], r)
  if whole.isEmpty && part.isEmpty then none
  else (readExponent? tail).map fun e =>
    ofDecimal negative (digitsValue (whole ++ part)) (e - part.length)

def readReal? (s : String) : Option Float := do
  let (negative, cs) := splitSign (← numeral? s)
  let word := String.ofList (cs.map Char.toLower)
  if word == "inf" || word == "infinity" then some (withSign negative infinityBits)
  else if word == "nan" then some nan
  else readDecimal? negative cs

end Chalkboard.Number
