import Chalkboard.Run.Origin
import Chalkboard.Syntax.Flow

/-! One step: a declaration or sentence is performed and tells the place of the next. A counting loop
remembers whether it is in progress. -/

namespace Chalkboard.Run

open Syntax (Expr Variable Sentence Action Item Builtin)
open Memory (MemoryM)

/-- Where a run stands: its memory, the places of the counting loops in progress, the expressions
evaluated in this step with their values, and the origins of undefined numbers. -/
structure Situation where
  memory : Memory := {}
  looping : List Nat := []
  noted : List (Expr × Value) := []
  origins : Origins := {}

abbrev StepM := ExceptT Fault (StateM Situation)

def onMemory {α : Type} (m : MemoryM α) : StepM α := fun s =>
  let (result, memory) := m s.memory
  (result, { s with memory := memory })

def evaluate (f : Frame) (e : Expr) : StepM Value := do
  let v ← evalExpr (f.env (← get).memory) e
  modify fun s => { s with noted := s.noted ++ [(e, v)] }
  return v

def traceOrigin (f : Frame) (v : Variable) (e : Expr) (value : Value) : StepM Unit :=
  modify fun s =>
    if isUndefined value then
      { s with origins := s.origins.write (f.env s.memory) s.memory v e }
    else s

def setLooping (place : Nat) (on : Bool) : StepM Unit :=
  modify fun s =>
    { s with looping := if on then place :: s.looping.filter (· != place)
                        else s.looping.filter (· != place) }

def nextCount (f : Frame) (place : Nat) (v : Variable) (start : Expr) (up : Bool) : StepM Value := do
  if (← get).looping.contains place then
    let current ← onMemory (readVariable f v)
    liftMisuse (if up then current.add (.int 1) else current.sub (.int 1))
  else evaluate f start

def perform (f : Frame) (place : Nat) (item : Item) : Sentence → StepM (Option Nat)
  | .skip _ => return item.next
  | .assign v e => do
    let value ← evaluate f e
    traceOrigin f v e value
    onMemory (writeVariable f v value)
    return item.next
  | .call builtin _ v => do
    match builtin with
    | .alloc => onMemory (alloc f v)
    | .free => onMemory (free f v)
    return item.next
  | .branch guard .. => do
    let inside := if (← evaluate f guard).truthy then item.inner else item.other
    return inside <|> item.next
  | .loop guard _ => do
    if (← evaluate f guard).truthy then return item.inner else return item.next
  | .count v start stop up _ => do
    let value ← nextCount f place v start up
    let last ← evaluate f stop
    if ← liftMisuse (if up then value.lessEqual last else value.moreEqual last) then
      onMemory (writeVariable f v value)
      setLooping place true
      return item.inner
    else
      setLooping place false
      return item.next

def step (f : Frame) (place : Nat) (item : Item) : StepM (Option Nat) :=
  match item.action with
  | .declare d => do
    onMemory (Memory.declare f.types.graph f.limits d.name d.type)
    return item.next
  | .perform s => perform f place item s

end Chalkboard.Run
