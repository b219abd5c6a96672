import Chalkboard.Run.Machine
import Chalkboard.Timeline.Diff

/-! The timeline of a run: a frame after every step, and one before all others when the run started
from a loaded memory. -/

namespace Chalkboard

open Syntax (Expr Item Program)
open Chalkboard.Types (Graph)
open Memory (Root)

structure Timeline.Frame where
  /-- The place of the step done; none in the frame of a loaded memory. -/
  done : Option Nat
  line : Nat
  situation : Run.Situation
  diff : Diff

def Timeline.Frame.memory (f : Frame) : Memory := f.situation.memory

def Timeline.Frame.noted (f : Frame) : List (Expr × Value) := f.situation.noted

abbrev Timeline := Array Timeline.Frame

namespace Timeline

def isDeclaration (items : Array Item) (place : Nat) : Bool :=
  match items[place]? with
  | some item => match item.action with
    | .declare _ => true
    | .perform _ => false
  | none => false

def lineOf (items : Array Item) (place : Nat) : Nat :=
  (items[place]?).elim 0 fun i => i.action.line

def record (g : Graph) (items : Array Item) (done : Option Nat) (now : Run.Situation) :
    ExceptT Fault (StateM Timeline) Unit := do
  let frames ← get
  let before := (frames.back?.map (·.situation)).getD {}
  let d ← diff g before now
  set (frames.push ⟨done, (done.map (lineOf items)).getD 0, now, d⟩)

def recorder (g : Graph) (p : Program) : Run.Watch Timeline :=
  let items := p.items.toArray
  { after := record g items }

def loaded? (frames : Timeline) : Option Frame :=
  frames[0]?.filter (·.done.isNone)

def declarations (items : Array Item) (frames : Timeline) : List Frame :=
  frames.toList.filter fun f => f.done.any (isDeclaration items)

def sentences (items : Array Item) (frames : Timeline) : List Frame :=
  frames.toList.filter fun f => f.done.any fun place => !isDeclaration items place

def Frame.cell? (f : Frame) : Root → Option Memory.Cell
  | .stack name => f.memory.stackCell? name
  | .heap a => f.memory.heapCell? a

end Timeline

end Chalkboard
