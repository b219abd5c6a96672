import Chalkboard.Number.Binary

/-! Colours by hue: on the colour circle with lightness and saturation, or with saturation and
brightness, all in doubles. One is the full circle and the full strength; components beyond it are
kept. -/

namespace Chalkboard.Picture

structure Rgb where
  red : Float
  green : Float
  blue : Float

/-- Hue, lightness and saturation. -/
structure Hls where
  hue : Float
  lightness : Float
  saturation : Float

/-- Hue, saturation and brightness. -/
structure Hsv where
  hue : Float
  saturation : Float
  brightness : Float

def largest (x y : Float) : Float := if y > x then y else x

def smallest (x y : Float) : Float := if y < x then y else x

def turn (x : Float) : Float := x - x.floor

def saturation? (high low : Float) : Option Float :=
  let whole := if (high + low) / 2.0 <= 0.5 then high + low else 2.0 - high - low
  if whole == 0.0 then none else some ((high - low) / whole)

def Rgb.hue (c : Rgb) (high low : Float) : Float :=
  let range := high - low
  let red := (high - c.red) / range
  let green := (high - c.green) / range
  let blue := (high - c.blue) / range
  let sixths :=
    if c.red == high then blue - green
    else if c.green == high then 2.0 + red - blue
    else 4.0 + green - red
  turn (sixths / 6.0)

def Rgb.toHls? (c : Rgb) : Option Hls :=
  let high := largest (largest c.red c.green) c.blue
  let low := smallest (smallest c.red c.green) c.blue
  let lightness := (high + low) / 2.0
  if low == high then some ⟨0.0, lightness, 0.0⟩
  else (saturation? high low).map fun s => ⟨c.hue high low, lightness, s⟩

def component (low high hue : Float) : Float :=
  let hue := turn hue
  if hue < 1.0 / 6.0 then low + (high - low) * hue * 6.0
  else if hue < 0.5 then high
  else if hue < 2.0 / 3.0 then low + (high - low) * (2.0 / 3.0 - hue) * 6.0
  else low

def Hls.toRgb (c : Hls) : Rgb :=
  if c.saturation == 0.0 then ⟨c.lightness, c.lightness, c.lightness⟩
  else
    let high :=
      if c.lightness <= 0.5 then c.lightness * (1.0 + c.saturation)
      else c.lightness + c.saturation - c.lightness * c.saturation
    let low := 2.0 * c.lightness - high
    ⟨component low high (c.hue + 1.0 / 3.0), component low high c.hue,
      component low high (c.hue - 1.0 / 3.0)⟩

def Hsv.toRgb (c : Hsv) : Rgb :=
  if c.saturation == 0.0 then ⟨c.brightness, c.brightness, c.brightness⟩
  else
    let v := c.brightness
    let sixths := c.hue * 6.0
    let sector := (Number.truncate? sixths).getD 0
    let way := sixths - Float.ofInt sector
    let p := v * (1.0 - c.saturation)
    let q := v * (1.0 - c.saturation * way)
    let t := v * (1.0 - c.saturation * (1.0 - way))
    match (sector % 6).toNat with
    | 0 => ⟨v, t, p⟩
    | 1 => ⟨q, v, p⟩
    | 2 => ⟨p, v, t⟩
    | 3 => ⟨p, q, v⟩
    | 4 => ⟨t, p, v⟩
    | _ => ⟨v, p, q⟩

end Chalkboard.Picture
