import Chalkboard.Proofs.Effects
import Chalkboard.Run.Machine

/-! A second way to run a program, by recursion on its blocks. It knows no links from one sentence to
the next and does not remember which counting loops are in progress: a branch is followed by what
follows the branching, and a loop is its test, its body, and the loop again. Places serve as names of
sentences only. -/

namespace Chalkboard.Run

open Syntax (Expr Variable Sentence Action Declaration Item Program extents)

/-- What can be seen after a step: the place and the action that were performed, the memory they left,
and the expressions that were evaluated. -/
structure Moment where
  place : Option Nat
  action : Option Action
  memory : Memory
  noted : List (Expr × Value)

abbrev Trace := List Moment

/-- Records the moments after an action that is known beforehand. -/
def recording (action : Option Action) : Watch Trace :=
  { after := fun place s => modify (· ++ [⟨place, action, s.memory, s.noted⟩]) }

/-- Records every moment of a run over a flow, with the action that stands at its place. -/
def tracer (items : Array Item) : Watch Trace :=
  { after := fun place s =>
      (recording (place.bind fun i => items[i]?.map (·.action))).after place s }

/-- Work that may take so many steps and no more: it ends with the number of steps left, or it is cut
short. -/
abbrev Budgeted := StateT Nat (OptionT (RunM Trace))

def spend {α : Type} (f : Frame) (place : Nat) (action : Action) (m : StepM α) : Budgeted α := fun
  | 0 => failure
  | k + 1 => OptionT.lift do return (← watched f.limits (recording (some action)) place m, k)

def deed (f : Frame) : Sentence → StepM Unit
  | .assign v e => do
    let value ← evaluate f e
    traceOrigin f v e value
    onMemory (writeVariable f v value)
  | .call .alloc _ v => onMemory (alloc f v)
  | .call .free _ v => onMemory (free f v)
  | _ => pure ()

def guardTest (f : Frame) (guard : Expr) : StepM Bool := do
  return (← evaluate f guard).truthy

/-- The value a counting loop tries: the start at first, and afterwards one more or one less than the
variable holds then. -/
def countValue (f : Frame) (v : Variable) (start : Expr) (up first : Bool) : StepM Value :=
  if first then evaluate f start
  else do
    let current ← onMemory (readVariable f v)
    liftMisuse (if up then current.add (.int 1) else current.sub (.int 1))

/-- The test of a counting loop. The end is evaluated anew each time, and the variable is written only
if the loop goes on. -/
def countTest (f : Frame) (v : Variable) (start stop : Expr) (up first : Bool) : StepM Bool := do
  let value ← countValue f v start up first
  let last ← evaluate f stop
  let more ← liftMisuse (if up then value.lessEqual last else value.moreEqual last)
  if more then onMemory (writeVariable f v value)
  return more

/-- Test, body, test again. A test takes a step, so there are no more rounds than steps. -/
def rounds (test : Bool → Budgeted Bool) (body : Budgeted Unit) : Nat → Bool → Budgeted Unit
  | 0, _ => failure
  | n + 1, first => do
    if ← test first then
      body
      rounds test body n false

mutual

def execute (f : Frame) (place : Nat) : Sentence → Budgeted Unit
  | .branch guard yes no => do
    if ← spend f place (.perform (.branch guard yes no)) (guardTest f guard) then
      executeAll f (place + 1) yes
    else executeAll f (place + 1 + extents yes) no
  | .loop guard body => do
    let test _ := spend f place (.perform (.loop guard body)) (guardTest f guard)
    rounds test (executeAll f (place + 1) body) (← get) true
  | .count v start stop up body => do
    let test first :=
      spend f place (.perform (.count v start stop up body)) (countTest f v start stop up first)
    rounds test (executeAll f (place + 1) body) (← get) true
  | s => spend f place (.perform s) (deed f s)

def executeAll (f : Frame) (place : Nat) : List Sentence → Budgeted Unit
  | [] => pure ()
  | s :: rest => do
    execute f place s
    executeAll f (place + s.extent) rest

end

def declareAll (f : Frame) (place : Nat) : List Declaration → Budgeted Unit
  | [] => pure ()
  | d :: rest => do
    spend f place (.declare d) (onMemory (Memory.declare f.types.graph f.limits d.name d.type))
    declareAll f (place + 1) rest

/-- The declarations, then the sentences. There must be one to start with. -/
def structured (f : Frame) (p : Program) (loaded : Bool) : Budgeted Unit := do
  if loaded then showAfter (recording none)
  if p.declarations.isEmpty && p.sentences.isEmpty then throwThe Fault (.misuse .emptyProgram)
  declareAll f 0 p.declarations
  executeAll f p.declarations.length p.sentences

end Chalkboard.Run
