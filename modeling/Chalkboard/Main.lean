import Chalkboard.CommandLine.Perform
import Chalkboard.Session.Archive

/-! The program: reads the files a command line names, does what it asks for, and writes what comes of
it. -/

namespace Chalkboard.CommandLine

def Content.ofText (text : String) : Content :=
  match Session.Saved.ofArchive? text with
  | some s => .saved s
  | none => .text text

def Request.reads : Request → List String
  | .run o => o.source :: o.loadFrom.toList
  | _ => []

def nameWords (cs : List Char) : List String :=
  (cs.splitBy fun a b => isNameChar a == isNameChar b).filterMap fun w =>
    if w.any isNameChar then some (String.ofList w) else none
where
  isNameChar (c : Char) : Bool := c.isAlphanum || c == '_'

def Desk.savedFile? (d : Desk) : Request → Option (String × String)
  | .run o => do
    let name ← o.saveTo
    match d.files.read name with
    | .ok (.saved s) => some (name, s.archive)
    | _ => none
  | _ => none

def Request.folders : Request → List String
  | .run o => o.saveTo.elim [] fun name => (stations name).dropLast
  | _ => []

def lastWords : Fault → String
  | .exit _ => ""
  | .unexpected token line column => s!"Unexpected token {token} at line {line}, column {column}."
  | f => f.message.getD "The program cannot go on."

def exitCode : Fault → UInt32
  | .exit "0" | .exit "None" => 0
  | _ => 1

end Chalkboard.CommandLine

open Chalkboard CommandLine in
def main (args : List String) : IO UInt32 := do
  let request := (readRequest args).toOption.getD .help
  let mut contents : List (String × Content) := []
  let mut names : List String := ["STOP_AT"]
  for name in request.reads do
    try
      let text ← IO.FS.readFile name
      contents := contents ++ (stations name).getLast?.toList.map fun name => (name, Content.ofText text)
      names := names ++ nameWords text.toList
    catch _ => pure ()
  let here ← IO.currentDir
  let folders ← request.folders.filterM fun (folder : String) => (here / folder).isDir
  let environment ← names.eraseDups.filterMapM fun name => do
    return (← IO.getEnv name).map fun value => (name, value)
  let (result, desk) := (command { environment } {} args).run { files := { contents, folders } }
  IO.print desk.printed
  if let some (name, text) := desk.savedFile? request then IO.FS.writeFile name text
  match result with
  | .ok _ => return 0
  | .error f =>
    let words := lastWords f
    if !words.isEmpty then IO.eprintln words
    return exitCode f
