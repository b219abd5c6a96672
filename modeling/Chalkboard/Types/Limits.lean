import Chalkboard.Types.Shape

/-! Limits on what a program may use, and the check that a type is not too complex. -/

namespace Chalkboard.Types

/-- Each limit may be absent. -/
structure Limits where
  steps : Option Int := some 1000
  arrayDimensions : Option Int := some 3
  arraySize : Option Int := some 100
  tupleSize : Option Int := some 10
  stackCells : Option Int := some 500
  heapCells : Option Int := some 5000
  typeDepth : Option Int := some 5

def Limits.set (l : Limits) (name : String) (limit : Option Int) : Limits :=
  match name with
  | "EXECUTION_STEPS_LIMIT" => { l with steps := limit }
  | "MAXIMUM_ARRAY_DIMENSIONS" => { l with arrayDimensions := limit }
  | "MAXIMUM_ARRAY_SIZE" => { l with arraySize := limit }
  | "MAXIMUM_TUPLE_SIZE" => { l with tupleSize := limit }
  | "MAXIMUM_STACK_CELLS" => { l with stackCells := limit }
  | "MAXIMUM_HEAP_CELLS" => { l with heapCells := limit }
  | "TYPE_COMPOSITION_DEPTH_LIMIT" => { l with typeDepth := limit }
  | _ => l

def exceeds (limit : Option Int) (n : Int) : Bool :=
  match limit with
  | some l => l < n
  | none => false

/-- Arrays whose number of elements is no whole number are compared all the same. -/
def valueExceeds (limit : Option Int) (n : Unit → Except Fault Value) : Except Fault Bool :=
  match limit with
  | some l => do liftMisuse ((← n ()).more (.int l))
  | none => .ok false

/-- Looks at a type and its parts. `trail` holds the types on the way here, which are not entered
again; the way starts anew below an array. The depth grows from an array to its element and from a
tuple to its fields. -/
def Graph.checkFrom (g : Graph) (limits : Limits) :
    Nat → TypeId → (depth : Int) → (trail : List TypeId) → Except Fault Unit
  | 0, _, _, _ => .error (.misuse .endless)
  | fuel + 1, t, depth, trail =>
    if trail.contains t then .ok ()
    else if exceeds limits.typeDepth depth then .error (.limit .typeDepth)
    else do
      let trail := t :: trail
      match g.node (← g.closure t) with
      | .pointer (.settled target) => checkFrom g limits fuel target depth trail
      | .array element axes =>
        if exceeds limits.arrayDimensions axes.length then throw (.limit .arrayDimensions)
        if ← valueExceeds limits.arraySize fun _ => elementCount axes then throw (.limit .arraySize)
        checkFrom g limits fuel element (depth + 1) []
      | .tuple _ fields _ =>
        if exceeds limits.tupleSize fields.length then throw (.limit .tupleSize)
        fields.forM fun (_, field) => checkFrom g limits fuel field (depth + 1) trail
      | _ => pure ()

def longestWalk : Nat := callDepth

/-- A walk that never re-enters a type it came through is shorter than the graph, and it can start
anew only as often as the depth allows. -/
def Graph.checkFuel (g : Graph) (limits : Limits) : Nat :=
  match limits.typeDepth with
  | some depth => min longestWalk ((depth.toNat + 2) * (g.nodes.size + 2))
  | none => longestWalk

def Graph.checkLimits (g : Graph) (limits : Limits) (t : TypeId) : Except Fault Unit :=
  g.checkFrom limits (g.checkFuel limits) t 1 []

end Chalkboard.Types
