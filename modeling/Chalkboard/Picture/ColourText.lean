import Chalkboard.Number.Reading
import Chalkboard.Picture.ColourName
import Chalkboard.Picture.Hue

/-! Colours from texts: by name, by hexadecimal digits, by components, or by hue. The case of letters
does not count, and what is said about opacity is left out. -/

namespace Chalkboard.Picture

def longestColour : Nat := 100

/-- A letter in lower case. The sign for kelvin is a letter k. -/
def lowered (c : Char) : Char := if c.toNat == 0x212a then 'k' else c.toLower

def hexDigit? (c : Char) : Option Nat :=
  if '0' ≤ c ∧ c ≤ '9' then some (c.toNat - '0'.toNat)
  else if 'a' ≤ c ∧ c ≤ 'f' then some (c.toNat - 'a'.toNat + 10)
  else none

def hexComponents? : List Nat → Option (List Int)
  | [r, g, b] | [r, g, b, _] => some [17 * r, 17 * g, 17 * b]
  | [r, r', g, g', b, b'] | [r, r', g, g', b, b', _, _] =>
    some [16 * r + r', 16 * g + g', 16 * b + b']
  | _ => none

def isDigit (c : Char) : Bool := (Text.digitValue? c).isSome

def wholeArgument? (cs : List Char) : Option Int :=
  if cs.isEmpty || !cs.all isDigit then none else Number.readInt? (String.ofList cs)

def realArgument? (cs : List Char) : Option Float :=
  let rest := cs.dropWhile isDigit
  let part := if rest.head? == some '.' then rest.drop 1 else rest
  if (cs.head?.any isDigit) && part.all isDigit then Number.readReal? (String.ofList cs) else none

def percent? (cs : List Char) : Option (List Char) :=
  if cs.getLast? == some '%' then some cs.dropLast else none

def percentComponent? (cs : List Char) : Option Int := do
  let n ← (percent? cs).bind wholeArgument?
  Number.truncate? ((← Number.ofInt? (n * 255)) / 100.0 + 0.5)

def percentReal? (cs : List Char) : Option Float :=
  ((percent? cs).bind realArgument?).map (· / 100.0)

def circlePart? (cs : List Char) : Option Float := (realArgument? cs).map (· / 360.0)

def Rgb.components? (c : Rgb) : Option (List Int) :=
  [c.red, c.green, c.blue].mapM fun x => Number.truncate? (x * 255.0 + 0.5)

def commaParts : List Char → List (List Char)
  | [] => [[]]
  | ',' :: cs => [] :: commaParts cs
  | c :: cs =>
    match commaParts cs with
    | part :: parts => (c :: part) :: parts
    | [] => [[c]]

def called? (word : String) (arguments : List (List Char)) : Option (List Int) :=
  match word, arguments with
  | "rgb", [r, g, b] =>
    [r, g, b].mapM wholeArgument? <|> [r, g, b].mapM percentComponent?
  | "rgba", [r, g, b, a] => do
    let components ← [r, g, b].mapM wholeArgument?
    let _ ← wholeArgument? a
    return components
  | "hsl", [h, s, l] => do
    (Hls.toRgb ⟨← circlePart? h, ← percentReal? l, ← percentReal? s⟩).components?
  | "hsv", [h, s, v] | "hsb", [h, s, v] => do
    (Hsv.toRgb ⟨← circlePart? h, ← percentReal? s, ← percentReal? v⟩).components?
  | _, _ => none

def unnamed? (cs : List Char) : Option (List Int) :=
  let cs := if cs.getLast? == some '\n' then cs.dropLast else cs
  match cs with
  | '#' :: digits => (digits.mapM hexDigit?).bind hexComponents?
  | _ =>
    let word := cs.takeWhile (· != '(')
    let rest := cs.drop (word.length + 1)
    if rest.getLast? == some ')' then
      called? (String.ofList word) ((commaParts rest.dropLast).map (Text.trimmed Text.isBlank))
    else none

def colourComponents? (text : String) : Option (List Int) :=
  let cs := text.toList.map lowered
  if longestColour < text.length then none
  else namedColour? (String.ofList cs) <|> unnamed? cs

def Rgb.read? (text : String) : Option Rgb := do
  match ← (← colourComponents? text).mapM (Number.quotient? · 255) with
  | [r, g, b] => some ⟨r, g, b⟩
  | _ => none

end Chalkboard.Picture
