import Chalkboard.Types.Graph

/-! The shape of arrays and the place of an element in row-major order. -/

namespace Chalkboard.Types

def Axis.length (a : Axis) : Except Fault Value := do
  liftMisuse ((← a.high.value).sub (← a.low.value))

/-- An axis that ends before it starts has length zero. -/
def Axis.extent (a : Axis) : Except Fault Value := do
  let n ← a.length
  if ← liftMisuse (n.more (.int 0)) then return n else return .int 0

def shape (axes : List Axis) : Except Fault (List Value) := axes.mapM Axis.extent

def elementCount (axes : List Axis) : Except Fault Value := do
  (← shape axes).foldlM (fun n m => liftMisuse (n.mul m)) (.int 1)

def Axis.holds (a : Axis) (index : Value) : Except Fault Bool := do
  if ← liftMisuse ((← a.low.value).lessEqual index) then
    liftMisuse (index.less (← a.high.value))
  else return false

def isWhole : Value → Bool
  | .int _ | .bool _ => true
  | _ => false

/-- Goes over the axes from the last to the first; `step` is the number of elements behind one step
along the current axis. -/
def flattenFrom (flat step : Value) : List (Value × Axis) → Except Fault Value
  | [] => .ok flat
  | (index, axis) :: rest => do
    if !(← axis.holds index) then
      let index ← liftMisuse index.plain
      throw (.typing (.indexOutOfBounds index (← liftMisuse axis.display)))
    let low ← axis.low.value
    let offset ← liftMisuse (index.sub low)
    let flat ← liftMisuse (flat.add (← liftMisuse (offset.mul step)))
    let step ← liftMisuse (step.mul (← liftMisuse ((← axis.high.value).sub low)))
    flattenFrom flat step rest

def flatten (axes : List Axis) (indexes : List Value) : Except Fault Value :=
  if indexes.length != axes.length then
    .error (.typing (.indexCount axes.length indexes.length))
  else if !indexes.all isWhole then do
    throw (.typing (.indexNotInteger (← liftMisuse (Value.list indexes).display)))
  else flattenFrom (.int 0) (.int 1) (indexes.zip axes).reverse

/-- The place of an element, from indexes that come as one value. Only a list can hold indexes. -/
def flattenAny (axes : List Axis) (indexes : Value) : Except Fault Value := do
  match indexes, indexes.length? with
  | .list indexes, _ => flatten axes indexes
  | _, none => throw (.misuse .operands)
  | _, some n =>
    if n != axes.length then throw (.typing (.indexCount axes.length n))
    if n == 0 then return .int 0
    throw (.typing (.indexNotInteger (← liftMisuse indexes.plain)))

end Chalkboard.Types
