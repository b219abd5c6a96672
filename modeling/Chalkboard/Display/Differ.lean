import Chalkboard.Display.Colour
import Chalkboard.Run.Origin

/-! Marking values that are not what they were when they were last shown under the same key. -/

namespace Chalkboard.Display

/-- A value to be shown, and whether it has changed. -/
structure Shown where
  value : Value
  changed : Bool

def Shown.plain (s : Shown) : Except Misuse String := do
  let text ← s.value.plain
  return if s.changed then Colour.green.start ++ text ++ colourEnd else text

def Shown.display (s : Shown) : Except Misuse String := if s.changed then s.plain else s.value.display

/-- The values shown last, by key. -/
structure Differ where
  previous : List (Value × Run.Held) := []

abbrev DifferM := ExceptT Fault (StateM Differ)

def isKey : Value → Bool
  | .list _ | .record _ => false
  | _ => true

def sameKey (a b : Value) : Bool :=
  match a.equal b with
  | .ok same => same
  | .error _ => false

def enter (key : Value) (now : Run.Held) : List (Value × Run.Held) → List (Value × Run.Held)
  | [] => [(key, now)]
  | (k, old) :: rest => if sameKey k key then (k, now) :: rest else (k, old) :: enter key now rest

/-- Shows a value under a key. A first value, and one that follows none, has not changed. -/
def present (same : Run.Held → Run.Held → Except Misuse Bool) (key : Value) (now : Run.Held) :
    DifferM Shown := do
  if !isKey key then throw (.misuse .unhashable)
  let previous := (← get).previous.find? fun (k, _) => sameKey k key
  modify fun d => ⟨enter key now d.previous⟩
  match previous with
  | none | some (_, ⟨.absent, _⟩) => return ⟨now.value, false⟩
  | some (_, old) => return ⟨now.value, !(← liftMisuse (same old now))⟩

def presentValue (key value : Value) : DifferM Shown :=
  present (fun old now => old.value.equal now.value) key ⟨value, []⟩

end Chalkboard.Display
