import Chalkboard.Run.Step

/-! Runs: steps one after another, counted and limited, with someone watching. -/

namespace Chalkboard.Run

open Syntax (Expr Item Action Program)
open Chalkboard.Types (Limits)

/-- What a watcher does before and after each step. It is told the place of the step to come, or of the
step done, and where the run stands, and it may end the run. -/
structure Watch (σ : Type) where
  before : Nat → Situation → ExceptT Fault (StateM σ) Unit := fun _ _ => pure ()
  after : Option Nat → Situation → ExceptT Fault (StateM σ) Unit := fun _ _ => pure ()

/-- A run under way. -/
structure Course (σ : Type) where
  situation : Situation := {}
  steps : Nat := 0
  /-- The step done last. -/
  last : Option Nat := none
  /-- The step started last. -/
  current : Option Nat := none
  seen : σ

abbrev RunM (σ : Type) := ExceptT Fault (StateM (Course σ))

variable {σ : Type}

def watching (w : ExceptT Fault (StateM σ) Unit) : RunM σ Unit := fun c =>
  let (result, seen) := w c.seen
  (result, { c with seen := seen })

def stepping {α : Type} (m : StepM α) : RunM σ α := fun c =>
  let (result, situation) := m c.situation
  (result, { c with situation := situation })

def showAfter (w : Watch σ) : RunM σ Unit := do
  let c ← get
  set { c with situation := { c.situation with noted := [] } }
  watching (w.after c.last c.situation)

/-- One step with its watchers; the step counts when it is done. -/
def watched {α : Type} (limits : Limits) (w : Watch σ) (place : Nat) (m : StepM α) : RunM σ α := do
  modify fun c => { c with current := some place }
  watching (w.before place (← get).situation)
  let a ← stepping m
  modify fun c => { c with last := some place }
  showAfter w
  modify fun c => { c with steps := c.steps + 1 }
  if Types.exceeds limits.steps (← get).steps then throw (.limit .steps)
  return a

/-- Steps until there is no next one, as long as there is fuel. What is left to do is told: nothing, or
the place of the step that would come. -/
def runFrom (f : Frame) (w : Watch σ) (items : Array Item) : Nat → Option Nat → RunM σ (Option Nat)
  | _, none => return none
  | 0, some place => return some place
  | fuel + 1, some place => do
    match items[place]? with
    | none => return none
    | some item => runFrom f w items fuel (← watched f.limits w place (step f place item))

/-- More steps than the limit allows are never done; without a limit the fuel is as good as endless. -/
def stepFuel (limits : Limits) : Nat :=
  match limits.steps with
  | some l => l.toNat + 1
  | none => Number.twoTo 64

/-- The first steps of a program, from the first entry of its flow. A memory given at the start is shown
before. -/
def runProgram (f : Frame) (w : Watch σ) (p : Program) (loaded : Bool) (fuel : Nat) :
    RunM σ (Option Nat) := do
  if loaded then showAfter w
  let items := p.items.toArray
  if items.isEmpty then throw (.misuse .emptyProgram)
  runFrom f w items fuel (some 0)

def Course.start (memory : Option Memory) (looping : List Nat) (seen : σ) : Course σ :=
  { situation := { memory := memory.getD {}, looping := looping }, seen := seen }

/-- How a run ended: its course and the fault that ended it, if one did. -/
structure Outcome (σ : Type) where
  course : Course σ
  fault : Option Fault

def Outcome.of {α : Type} (r : Except Fault α × Course σ) : Outcome σ :=
  ⟨r.2, match r.1 with
    | .ok _ => none
    | .error e => some e⟩

def run (f : Frame) (w : Watch σ) (p : Program) (memory : Option Memory) (looping : List Nat)
    (seen : σ) : Outcome σ :=
  .of ((runProgram f w p memory.isSome (stepFuel f.limits)).run.run (.start memory looping seen))

def plain (f : Frame) (p : Program) (memory : Option Memory) (looping : List Nat) : Outcome Unit :=
  run f {} p memory looping ()

/-- Runs one program several times, each time on a new memory. A loop that a run left in progress is
in progress when the next one starts. -/
def repeated (f : Frame) (p : Program) : Nat → List Nat → List (Outcome Unit)
  | 0, _ => []
  | n + 1, looping =>
    let outcome := plain f p none looping
    outcome :: repeated f p n outcome.course.situation.looping

end Chalkboard.Run
