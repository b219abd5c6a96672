import Chalkboard.CommandLine.Files
import Chalkboard.CommandLine.Options
import Chalkboard.Picture.Show
import Chalkboard.Syntax.Outline
import Chalkboard.Timeline.Checkpoint

/-! Doing what a command line asks for, with the files at hand. -/

namespace Chalkboard.CommandLine

open Syntax (Program)
open Memory (Cell)
open Reading (Setting)
open Session (Saved)
open Timeline (Detection)

/-- The files, and what was printed. -/
structure Desk where
  files : Files
  printed : String := ""

abbrev DeskM := ExceptT Fault (StateM Desk)

def say (line : String) : DeskM Unit := modify fun d => { d with printed := d.printed ++ line ++ "\n" }

def fileAt (name : String) : DeskM Content := do liftMisuse ((← get).files.read name)

def sourceAt (name : String) : DeskM String := do
  match ← fileAt name with
  | .text s => return Text.fileText s
  | .saved _ => throw (.misuse .notText)

def savedAt (name : String) : DeskM Saved := do
  match ← fileAt name with
  | .saved s => return s
  | .text "" => throw (.misuse .endOfInput)
  | .text _ => throw (.misuse .notSaved)

def save (name : String) (s : Saved) : DeskM Unit := do
  let files ← liftMisuse ((← get).files.write name (.saved s))
  modify fun d => { d with files := files }

/-- Reads the program. A malformed one is reported, and ends the work. -/
def readSource (setting : Setting) (source : String) (types : Types) : DeskM (Program × Types) := do
  match (Reading.readProgram setting source).run types with
  | (.ok p, types) => return (p, types)
  | (.error f, _) =>
    if let .malformed .. := f then
      say ("Syntax error: " ++ f.message.getD "")
      throw (.exit "1")
    throw f

def findCheckpoints (o : Options) (p : Program) (source : String) : DeskM Detection := do
  if !o.explicitFrames then return {}
  let (found, result) := Timeline.checkpoints p source
  found.printed.forM say
  result
  return found

def runForMovie (setting : Setting) (theme : Picture.Theme) (o : Options) (found : Detection)
    (frame : Run.Frame) (p : Program) (memory : Option Memory) : DeskM Memory := do
  let outcome := Run.run frame (Timeline.recorder frame.types.graph p) p memory [] #[]
  if let some f := outcome.fault then throw f
  let script : Picture.Script :=
    ⟨frame.types.graph, theme, p.items.toArray, outcome.course.seen, found.marked,
      o.explicitFrames, (setting.environment.lookup "STOP_AT").getD ""⟩
  let (result, shown) := script.run
  shown.printed.forM say
  result
  return outcome.course.situation.memory

/-- Runs the program. A movie needs a name of the right kind. -/
def runProgram (setting : Setting) (theme : Picture.Theme) (o : Options) (found : Detection)
    (types : Types) (p : Program) (memory : Option Memory) : DeskM Memory := do
  let frame : Run.Frame := ⟨types, setting.limits, true⟩
  match o.movie with
  | some movie =>
    if !movie.endsWith ".mp4" then
      say "Movie must be a .mp4 file."
      throw (.exit "1")
    runForMovie setting theme o found frame p memory
  | none =>
    let outcome := Run.plain frame p memory []
    if let some f := outcome.fault then throw f
    return outcome.course.situation.memory

def sayCell (types : Types) (name : String) (c : Cell) : DeskM Unit := do
  let type ← types.graph.text c.type
  let value ← c.value types.graph
  say s!"    {name} ({type}): {← liftMisuse value.plain}"

def sayMemory (types : Types) (m : Memory) : DeskM Unit := do
  say "Final state:"
  say "  stack:"
  m.stack.forM fun (name, c) => sayCell types name c
  say "  heap:"
  m.heap.forM fun (a, c) => sayCell types a.text c

def perform (setting : Setting) (theme : Picture.Theme) (o : Options) : DeskM Unit := do
  let saved ← o.loadFrom.mapM savedAt
  let (loaded, types) := (Session.load saved).run (Session.fresh false saved {})
  loaded
  let source ← sourceAt o.source
  let (p, types) ← readSource setting source types
  let found ← findCheckpoints o p source
  if o.showTree then say (← p.outline types.graph false)
  if o.run then
    let memory ← runProgram setting theme o found types p (saved.map (·.memory))
    if let some name := o.saveTo then save name ⟨memory, types⟩
    if o.finalState then sayMemory types memory

def command (setting : Setting) (theme : Picture.Theme) (words : List String) : DeskM Unit := do
  match ← readRequest words with
  | .help =>
    say help
    throw (.exit "None")
  | .version =>
    say version
    throw (.exit "0")
  | .run o => perform setting theme o

end Chalkboard.CommandLine
