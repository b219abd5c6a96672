import Chalkboard.Memory.Cell
import Chalkboard.Types.Limits

/-! Memory: variables on the stack, blocks on the heap, each in the order they came, and the next free
number of each partition. -/

namespace Chalkboard

structure Memory where
  stack : List (String × Memory.Cell) := []
  heap : List (Memory.Address × Memory.Cell) := []
  nextStack : Int := 0
  nextHeap : Int := 0

namespace Memory

open Chalkboard.Types (TypeId Graph Node Limits)

/-- Work on a memory that can fail. What was changed before a failure stays changed. -/
abbrev MemoryM := ExceptT Fault (StateM Memory)

/-- What cells belong to: a variable, or a block of the heap. -/
inductive Root where
  | stack (name : String)
  | heap (address : Address)
  deriving DecidableEq, Repr

def Root.same : Root → Root → Bool
  | .stack m, .stack n => m == n
  | .heap a, .heap b => a.same b
  | _, _ => false

def Root.label : Root → String
  | .stack name => name
  | .heap a => a.text

/-- A cell in memory: what it belongs to, and the positions that lead to it. -/
structure Location where
  root : Root
  path : List Nat := []
  deriving DecidableEq, Repr

def next (m : Memory) : Partition → Int
  | .stack => m.nextStack
  | .heap => m.nextHeap

def setNext (m : Memory) (p : Partition) (n : Int) : Memory :=
  match p with
  | .stack => { m with nextStack := n }
  | .heap => { m with nextHeap := n }

def stackCell? (m : Memory) (name : String) : Option Cell := m.stack.lookup name

def heapCell? (m : Memory) (a : Address) : Option Cell :=
  (m.heap.find? fun (b, _) => b.same a).map (·.2)

def write (m : Memory) (here : Location) (v : Value) : Memory :=
  match here.root with
  | .stack name =>
    { m with stack := m.stack.map fun (n, c) => (n, if n == name then c.write v here.path else c) }
  | .heap a =>
    { m with heap := m.heap.map fun (b, c) => (b, if b.same a then c.write v here.path else c) }

/-- Enters a block; one that is there already is replaced where it stands. -/
def enter (a : Address) (c : Cell) : List (Address × Cell) → List (Address × Cell)
  | [] => [(a, c)]
  | (b, old) :: rest => if b.same a then (b, c) :: rest else (b, old) :: enter a c rest

def erase (m : Memory) (a : Address) : Memory :=
  { m with heap := m.heap.filter fun (b, _) => !b.same a }

def display (g : Graph) (m : Memory) : Except Fault String := do
  let stack ← m.stack.mapM fun (name, c) => do return Text.quoted name ++ ": " ++ (← c.display g)
  let heap ← m.heap.mapM fun (a, c) => do
    return (← liftMisuse a.display) ++ ": " ++ (← c.display g)
  return "State(stack=" ++ Text.braced stack ++ ", heap=" ++ Text.braced heap ++ ")"

def stackCount (m : Memory) : Nat := Cell.countFields m.stack

def heapCount (m : Memory) : Nat := Cell.countParts (m.heap.map (·.2))

def checkLimits (limits : Limits) (m : Memory) : Except Fault Unit :=
  if Types.exceeds limits.stackCells m.stackCount || Types.exceeds limits.heapCells m.heapCount then
    .error (.limit .memory)
  else .ok ()

def allocateLeaf (g : Graph) (p : Partition) (t : TypeId) : MemoryM Cell := do
  let n := (← get).next p
  match ← g.size t with
  | .int size =>
    modify fun m => m.setNext p (n + size)
    return .leaf ⟨p, n⟩ t .unknown
  | _ => throw (.misuse .notCount)

def allocateMany (one : MemoryM Cell) : Nat → MemoryM (List Cell)
  | 0 => return []
  | n + 1 => do
    let c ← one
    return c :: (← allocateMany one n)

/-- Makes a cell of a type with all its parts. Only arrays and tuples have parts; a synonym of one is
a single leaf. The parts of a type stand before it, so the place bounds the recursion. -/
def allocateFrom (g : Graph) (p : Partition) : Nat → TypeId → MemoryM Cell
  | 0, _ => throw (.misuse .endless)
  | fuel + 1, t => do
    match g.node t with
    | .array element axes =>
      let n ← Cell.countOf (← Types.elementCount axes)
      return .array t (← allocateMany (allocateFrom g p fuel element) n)
    | .tuple _ fields _ =>
      return .tuple t (← fields.mapM fun (name, field) => do
        return (name, ← allocateFrom g p fuel field))
    | _ => allocateLeaf g p t

def allocate (g : Graph) (p : Partition) (t : TypeId) : MemoryM Cell :=
  allocateFrom g p (g.nodes.size + 1) t

/-- Puts a new variable on the stack. The limits are checked when it is already there. -/
def declare (g : Graph) (limits : Limits) (name : String) (t : TypeId) : MemoryM Unit := do
  if ((← get).stackCell? name).isSome then throw (.alreadyDeclared name)
  let c ← allocate g .stack t
  modify fun m => { m with stack := m.stack ++ [(name, c)] }
  g.checkLimits limits t
  (← get).checkLimits limits

end Memory

end Chalkboard
