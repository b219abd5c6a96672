import Chalkboard.Reading.Program
import Chalkboard.Timeline.Basic

/-! Sessions: programs that go on from the memory and the types that an earlier one saved. -/

namespace Chalkboard.Session

open Syntax (Program)
open Chalkboard.Types (Registry TypesM)
open Reading (Setting)

/-- What a program leaves for the next. -/
structure Saved where
  memory : Memory
  types : Types

def load (saved : Option Saved) : TypesM Unit := do
  match saved with
  | none => pure ()
  | some saved =>
    let s ← get
    let (registry, result) := s.registry.merge saved.types.registry
    set { s with registry := registry }
    result

/-- The types a program starts with, before saved ones are loaded: none, or all that are there. -/
def fresh (keep : Bool) (saved : Option Saved) (now : Types) : Types :=
  if keep then now
  else { graph := (saved.map (·.types.graph)).getD .basic, registry := .basic }

/-- A program that was read and run. -/
structure Done where
  program : Program
  types : Types
  outcome : Run.Outcome Timeline

def runOne (setting : Setting) (keep : Bool) (saved : Option Saved) (now : Types) (source : String) :
    Except Fault Done × Types :=
  let reading : TypesM Program := do
    load saved
    Reading.readProgram setting source
  match reading.run (fresh keep saved now) with
  | (.error e, types) => (.error e, types)
  | (.ok p, types) =>
    let frame : Run.Frame := ⟨types, setting.limits, true⟩
    let outcome :=
      Run.run frame (Timeline.recorder types.graph p) p (saved.map (·.memory)) [] #[]
    (.ok ⟨p, types, outcome⟩, types)

/-- What is saved after a program: its result if it ended well, otherwise what was saved before. -/
def Done.save (d : Done) (before : Option Saved) : Option Saved :=
  if d.outcome.fault.isNone then some ⟨d.outcome.course.situation.memory, d.types⟩ else before

/-- Runs programs one after another. Each brings additions to the environment, which stay. -/
def runAll (setting : Setting) (keep : Bool) (saved : Option Saved) (now : Types) :
    List (String × List (String × String)) → List (Except Fault Done)
  | [] => []
  | (source, added) :: rest =>
    let setting := { setting with environment := added ++ setting.environment }
    match runOne setting keep saved now source with
    | (.error e, now) => .error e :: runAll setting keep saved now rest
    | (.ok d, now) => .ok d :: runAll setting keep (d.save saved) now rest

end Chalkboard.Session
