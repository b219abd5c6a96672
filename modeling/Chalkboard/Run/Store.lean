import Chalkboard.Run.Eval
import Chalkboard.Types.Admits

/-! What sentences do to memory: read and write a variable, allocate and free a block. -/

namespace Chalkboard.Run

open Syntax (Variable)
open Chalkboard.Types (Graph Limits Target)
open Memory (MemoryM Address Cell Location)

/-- The types, the limits, and whether indexes can be evaluated, while memory changes. -/
structure Frame where
  types : Types
  limits : Limits
  indexing : Bool := true

def Frame.env (f : Frame) (m : Memory) : Env := ⟨f.types, some m, f.indexing⟩

def find (f : Frame) (v : Variable) : MemoryM (Location × Cell) := do
  let m ← get
  locate (f.env m) m v

def readVariable (f : Frame) (v : Variable) : MemoryM Value := do
  leafValue (← find f v).2

def writeVariable (f : Frame) (v : Variable) (value : Value) : MemoryM Unit := do
  let (place, c) ← find f v
  match c with
  | .tuple .. => throw (.misuse .wholeTuple)
  | .array .. => throw (.memory (.wholeWrite c.kind))
  | .leaf _ t _ =>
    if ← f.types.graph.admits t value then modify fun m => m.write place value
    else
      let type ← f.types.graph.text t
      let text ← liftMisuse value.plain
      throw (.typing (.invalidValue v.text type text value.kind))

/-- Makes a block of the type a pointer points to. It is told where the pointer stands and the address
of the block. -/
def reserve (f : Frame) (v : Variable) : MemoryM (Location × Address × Cell) := do
  let g := f.types.graph
  let (place, c) ← find f v
  match g.node (← g.closure c.type) with
  | .pointer (.settled target) =>
    let block ← Memory.allocate g .heap (← g.closure target)
    return (place, ← block.address, block)
  | .pointer (.deferred ..) => throw (.misuse .missingPart)
  | _ => throw (.typing (.allocNotPointer v.text))

/-- Lets a pointer point to a new block. The pointer is set before the block is entered, and the limits
are checked last. -/
def alloc (f : Frame) (v : Variable) : MemoryM Unit := do
  let (place, address, block) ← reserve f v
  modify fun m => m.write place (.address address)
  modify fun m => { m with heap := Memory.enter address block m.heap }
  (← get).checkLimits f.limits

def pointed (f : Frame) (v : Variable) : MemoryM (Location × Address) := do
  let g := f.types.graph
  let (place, c) ← find f v
  if !g.isPointer c.type then throw (.typing (.freeNotPointer v.text))
  let value ← c.value g
  match value with
  | .address a =>
    if ((← get).heapCell? a).isNone then throw (.memory (.freeDangling v.text a.text))
    return (place, a)
  | _ => throw (.memory (.freeDangling v.text (← liftMisuse value.plain)))

def free (f : Frame) (v : Variable) : MemoryM Unit := do
  let (place, a) ← pointed f v
  modify fun m => (m.erase a).write place .unknown

end Chalkboard.Run
