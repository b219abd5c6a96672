import Chalkboard.Picture.Board
import Chalkboard.Picture.CodePanel

/-! The show: a picture before the first sentence, one after every sentence, and a last one. -/

namespace Chalkboard.Picture

open Chalkboard.Types (Graph)
open Memory (Root Cell)
open Syntax (Item)
open Timeline (Frame)

mutual

def holdsPointer (g : Graph) : Cell → Bool
  | .leaf _ t _ => g.isPointer t
  | .array t parts => g.isPointer t || anyHoldsPointer g parts
  | .tuple t parts => g.isPointer t || anyFieldHoldsPointer g parts

def anyHoldsPointer (g : Graph) : List Cell → Bool
  | [] => false
  | c :: cs => holdsPointer g c || anyHoldsPointer g cs

def anyFieldHoldsPointer (g : Graph) : List (String × Cell) → Bool
  | [] => false
  | (_, c) :: cs => holdsPointer g c || anyFieldHoldsPointer g cs

end

def heapCells (frames : Timeline) : List Cell :=
  frames.toList.flatMap fun f => f.diff.new.filterMap fun root => match root with
    | .heap a => f.memory.heapCell? a
    | .stack _ => none

structure Tick where
  previous : Option Numeric
  next : Option Numeric
  sprites : List (Root × Sprite)

structure Show where
  board : Board
  panel : CodePanel
  ticks : List Tick := []
  printed : List String := []

abbrev ShowM := ExceptT Fault (StateM Show)

/-- What is shown: the frames, whose sentences are marked, whether only those get a picture, and the
number of the sentence after which to stop. -/
structure Script where
  graph : Graph
  theme : Theme
  items : Array Item
  frames : Timeline
  marked : List Nat
  markedOnly : Bool
  stopAt : String

namespace Show

def onBoard {α : Type} (m : BoardM α) : ShowM α := fun s =>
  let (result, board) := m.run s.board
  (result, { s with board := board })

def markNext (line : Option Nat) : ShowM Unit :=
  modify fun s => { s with panel := s.panel.markNext (line.map fun n => .whole n) }

def tick : ShowM Unit :=
  modify fun s => { s with ticks := s.ticks ++ [⟨s.panel.previous, s.panel.next, s.board.sprites⟩] }

def sentences (s : Script) (number : Nat) : List Frame → ShowM Unit
  | [] => pure ()
  | f :: rest => do
    onBoard (Board.follow s.graph s.theme true f)
    markNext (rest.head?.map (·.line))
    if !s.markedOnly || f.done.any (s.marked.contains ·) then tick
    if s.stopAt == toString number then
      modify fun w => { w with printed := w.printed ++ [s!"STOP at {number}"] }
    else sentences s (number + 1) rest

def perform (s : Script) : ShowM Unit := do
  if let some f := Timeline.loaded? s.frames then onBoard (Board.start s.graph s.theme f)
  (Timeline.declarations s.items s.frames).forM fun f =>
    onBoard (Board.follow s.graph s.theme true f)
  let rest := Timeline.sentences s.items s.frames
  if let some f := rest.head? then markNext (some f.line)
  tick
  sentences s 0 rest
  tick

end Show

def Script.run (s : Script) : Except Fault Unit × Show :=
  (Show.perform s).run
    { board := ⟨s.theme.palette, !(heapCells s.frames).isEmpty, []⟩
      panel := CodePanel.make s.theme .absent }

end Chalkboard.Picture
