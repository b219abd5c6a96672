import Chalkboard.Picture.ColourText
import Chalkboard.Value.Operators

/-! Darker shades of a colour: through hue, lightness and saturation. -/

namespace Chalkboard.Picture

/-- A component as two hexadecimal digits; what is behind the point is cut off. -/
def hexComponent (x : Float) : String :=
  let n := (Number.truncate? (x * 255.0)).getD 0
  let digits := Nat.toDigits 16 n.natAbs
  String.ofList (if n < 0 then '-' :: digits else Number.padLeft 2 '0' digits)

def Rgb.text (c : Rgb) : String :=
  "#" ++ hexComponent c.red ++ hexComponent c.green ++ hexComponent c.blue

def usualAmount : Value := .real 0.2

/-- Takes less while the colour has little light itself. -/
def gentleAmount (lightness : Float) : Nat → Float → Float
  | 0, amount => amount
  | fuel + 1, amount =>
    if amount > 0.05 && lightness <= amount * 2.0 then gentleAmount lightness fuel (amount - 0.05)
    else amount

/-- The colour that a setting stands for. Only a text can stand for one. -/
def Rgb.of : Value → Except Fault Rgb
  | .text s => (Rgb.read? s).elim (.error (.misuse .format)) .ok
  | .list items =>
    .error (.misuse (if longestColour < items.length then .format else .missingPart))
  | .record _ => .error (.misuse .missingPart)
  | _ => .error (.misuse .operands)

/-- A colour with less light; with `gentle`, dark colours lose less. -/
def darken (colour amount : Value) (gentle : Bool) : Except Fault String := do
  let hls ← (← Rgb.of colour).toHls?.elim (.error (.misuse .divisionByZero)) .ok
  match amount.numeric? with
  | none => throw (.misuse .operands)
  | some amount =>
    let amount ← liftMisuse (Value.toReal amount)
    let steps := (amount * 20.0).toUInt64.toNat + 2
    let amount := if gentle then gentleAmount hls.lightness steps amount else amount
    return (Hls.toRgb { hls with lightness := largest 0.0 (hls.lightness - amount) }).text

end Chalkboard.Picture
