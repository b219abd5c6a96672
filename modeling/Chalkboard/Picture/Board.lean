import Chalkboard.Picture.Sprite
import Chalkboard.Timeline.Basic

/-! The board shows a memory: a sprite for every variable and every heap cell, kept up to date frame by
frame. -/

namespace Chalkboard.Picture

open Chalkboard.Types (Graph)
open Memory (Address Root Cell)
open Timeline (Frame)

structure Board where
  palette : Palette
  /-- Whether there is room for heap cells. -/
  heap : Bool
  sprites : List (Root × Sprite) := []

abbrev BoardM := ExceptT Fault (StateM Board)

def addresses (sprites : List (Root × Sprite)) : List Address :=
  sprites.filterMap fun (root, _) => match root with
    | .heap a => some a
    | .stack _ => none

def inHeap : Root → Bool
  | .stack _ => false
  | .heap _ => true

namespace Board

def paint {α : Type} (m : PaletteM α) : BoardM α := fun b =>
  let (result, palette) := m.run b.palette
  (result, { b with palette := palette })

def studio (g : Graph) (t : Theme) (lights : Bool) : BoardM Studio :=
  return ⟨g, t, addresses (← get).sprites, lights⟩

def frameCell (f : Frame) (root : Root) : Except Fault Cell :=
  (f.cell? root).elim (.error (.misuse .noSuchKey)) .ok

def needRoom (root : Root) : BoardM Unit := do
  if inHeap root && !(← get).heap then throw (.misuse .missingPart)

def add (s : Studio) (f : Frame) (root : Root) : BoardM Unit := do
  let cell ← frameCell f root
  let value ← cell.value s.graph
  let sprite ← paint (Sprite.make s (inHeap root) root.label cell.type value)
  needRoom root
  modify fun b => { b with sprites := b.sprites ++ [(root, sprite)] }

def change (s : Studio) (anew : Bool) (f : Frame) (root : Root) : BoardM Unit := do
  let value ← (← frameCell f root).value s.graph
  match (← get).sprites.find? fun (r, _) => r.same root with
  | none => throw (.misuse .noSuchKey)
  | some (_, sprite) =>
    let (sprite, result) := sprite.set s anew value
    modify fun b =>
      { b with sprites := b.sprites.map fun (r, old) => (r, if r.same root then sprite else old) }
    result

/-- Takes the sprite of a heap cell away; variables stay to the end. -/
def remove (root : Root) : BoardM Unit := do
  match root with
  | .stack _ => throw (.misuse .noText)
  | .heap _ =>
    if !(← get).sprites.any fun (r, _) => r.same root then throw (.misuse .noSuchKey)
    modify fun b => { b with sprites := b.sprites.filter fun (r, _) => !r.same root }
    needRoom root

def follow (g : Graph) (t : Theme) (lights : Bool) (f : Frame) : BoardM Unit := do
  f.diff.new.forM fun root => do add (← studio g t lights) f root
  f.diff.changed.forM fun root => do change (← studio g t lights) false f root
  f.diff.deleted.forM remove

/-- Shows a loaded memory, unlit. All values are shown a second time, so that pointers lead also to
cells that come after them. -/
def start (g : Graph) (t : Theme) (f : Frame) : BoardM Unit := do
  follow g t false f
  f.diff.new.forM fun root => do change (← studio g t false) true f root

end Board

end Chalkboard.Picture
