import Chalkboard.Run.Step

/-! What changed from one memory to the next. -/

namespace Chalkboard.Timeline

open Chalkboard.Types (Graph)
open Memory (Root)
open Run (Held)

/-- A constant that was kept from before is never the same as a present one. -/
def stays (now before : Held) : Except Misuse Bool := now.sameAs (fun _ _ => false) before

/-- The keys of what came, what has another value, and what is gone; variables before blocks, each in
the order of its memory. -/
structure Diff where
  new : List Root := []
  changed : List Root := []
  deleted : List Root := []

def held (g : Graph) (s : Run.Situation) (c : Memory.Cell) : Except Fault Held := do
  return ⟨← c.value g, s.origins.inside c⟩

def keyedValues (g : Graph) (s : Run.Situation) : Except Fault (List (Root × Held)) := do
  let stack ← s.memory.stack.mapM fun (name, c) => do return (Root.stack name, ← held g s c)
  let heap ← s.memory.heap.mapM fun (a, c) => do return (Root.heap a, ← held g s c)
  return stack ++ heap

def valueAt? (values : List (Root × Held)) (key : Root) : Option Held :=
  (values.find? fun (k, _) => k.same key).map (·.2)

def absentFrom (others values : List (Root × Held)) : List Root :=
  (values.filter fun (k, _) => (valueAt? others k).isNone).map (·.1)

def changedFrom (before : List (Root × Held)) : List (Root × Held) → Except Misuse (List Root)
  | [] => .ok []
  | (k, v) :: rest => do
    let stayed ← (valueAt? before k).elim (.ok true) (stays v)
    let changed ← changedFrom before rest
    return if stayed then changed else k :: changed

def compare (before now : List (Root × Held)) : Except Misuse Diff := do
  return ⟨absentFrom before now, ← changedFrom before now, absentFrom now before⟩

def diff (g : Graph) (before now : Run.Situation) : Except Fault Diff := do
  liftMisuse (compare (← keyedValues g before) (← keyedValues g now))

end Chalkboard.Timeline
