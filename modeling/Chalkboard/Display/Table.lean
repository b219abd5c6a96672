import Chalkboard.Display.Differ
import Chalkboard.Run.Machine

/-! The state table: a row for each variable, then for each block on the heap. -/

namespace Chalkboard.Display

open Chalkboard.Types (Graph)
open Memory (Cell)

/-- The value a cell is shown with. Characters are quoted. Arrays cannot be shown. -/
def cellValue (g : Graph) (c : Cell) : Except Fault Value :=
  match g.node c.type with
  | .array .. => .error (.misuse .missingPart)
  | .char => do
    match ← c.value g with
    | .unknown => return .unknown
    | v => return .text ("'" ++ (← liftMisuse v.plain) ++ "'")
  | _ => c.value g

/-- A cell's value, marked if it is not the one shown last at its address. -/
def showCell (g : Graph) (marking : Bool) (o : Run.Origins) (c : Cell) : DifferM Shown := do
  let v ← cellValue g c
  if marking then
    let a ← c.address
    present (fun old now => old.sameAs Constant.same now) (.address a) ⟨v, o.inside c⟩
  else return ⟨v, false⟩

def row (g : Graph) (marking : Bool) (s : Run.Situation) (name : String) (c : Cell) :
    DifferM (List String) := do
  let shown ← showCell g marking s.origins c
  let size ← g.size c.type
  let address ← c.address
  let pointed ← if g.isPointer c.type then do
      match ← c.value g with
      | .address a => (s.memory.heapCell? a).mapM (showCell g marking s.origins)
      | _ => pure none
    else pure none
  let type ← g.text c.type
  let size ← liftMisuse size.plain
  let value ← liftMisuse shown.plain
  let pointed ← liftMisuse (pointed.mapM Shown.plain)
  return [name, type, size, address.text, value, pointed.getD ""]

def stackRows (g : Graph) (marking : Bool) (s : Run.Situation) : DifferM (List (List String)) :=
  s.memory.stack.mapM fun (name, c) => row g marking s name c

def heapRows (g : Graph) (marking : Bool) (s : Run.Situation) : DifferM (List (List String)) :=
  s.memory.heap.mapM fun (_, c) => row g marking s "" c

/-- The table of a moment: the rows of variables and the rows of blocks. -/
structure Table where
  stack : List (List String)
  heap : List (List String)

def Table.rows (t : Table) : List (List String) := t.stack ++ t.heap

def Table.dividers (t : Table) : List Bool :=
  (t.stack.zipIdx.map fun (_, i) => i + 1 == t.stack.length) ++ t.heap.map fun _ => false

def columns : List String := ["Name", "Type", "Size", "Address", "Value", "Pointed value"]

def alignments : List (String × String) :=
  [("Name", "l"), ("Pointed value", "r"), ("Type", "l"), ("Value", "r")]

/-- What a watcher that makes tables has seen. -/
structure Tables where
  differ : Differ := {}
  made : List Table := []

/-- Makes the table of a moment. Drawn tables need a variable to draw the line below. -/
def makeTable (g : Graph) (marking drawn : Bool) (now : Run.Situation) : ExceptT Fault (StateM Tables) Unit := do
  let making : DifferM Table := do
    let stack ← stackRows g marking now
    if drawn && stack.isEmpty then throw (.misuse .noSuchPart)
    return ⟨stack, ← heapRows g marking now⟩
  let s ← get
  let (result, differ) := making.run s.differ
  set { s with differ := differ }
  match result with
  | .ok table => modify fun s => { s with made := s.made ++ [table] }
  | .error e => throw e

def tableMaker (g : Graph) (marking drawn : Bool) : Run.Watch Tables :=
  { after := fun _ now => makeTable g marking drawn now }

end Chalkboard.Display
