import Chalkboard.Session

/-! Files by name. A name leads through folders, step by step; where a step cannot be taken, the name
leads nowhere. -/

namespace Chalkboard.CommandLine

open Session (Saved)

/-- What is in a file. -/
inductive Content where
  | text (s : String)
  | saved (s : Saved)

/-- Files under their names, and the folders that are there besides those the files are in. -/
structure Files where
  contents : List (String × Content) := []
  folders : List String := []

/-- Where a name has led so far, under a name without detours. -/
inductive Spot where
  | file (name : String)
  | folder (name : String)
  /-- Nothing yet, but there could be. -/
  | nothing (name : String)
  deriving DecidableEq, Repr

/-- The name of something in a folder; the folder at hand has no name. -/
def inFolder (folder name : String) : String :=
  if folder == "" || folder == "/" then folder ++ name else folder ++ "/" ++ name

def isOutside (folder : String) : Bool := folder.startsWith "/" || folder.startsWith ".."

def parent (folder : String) : String :=
  if folder == "" then ".." else if isOutside folder then inFolder folder ".."
  else "/".intercalate (folder.splitOn "/").dropLast

/-- The names of all that a name leads through, without detours, down to the end. -/
def stations (name : String) : List String :=
  ((name.splitOn "/").foldl (fun passed step =>
    let here := passed.headD (if name.startsWith "/" then "/" else "")
    if step == "" || step == "." then passed
    else (if step == ".." then parent here else inFolder here step) :: passed) []).reverse

namespace Files

def hasFolder (fs : Files) (name : String) : Bool :=
  fs.folders.contains name || fs.contents.any fun (n, _) => n.startsWith (name ++ "/")

def spot (fs : Files) (name : String) : Spot :=
  if (fs.contents.lookup name).isSome then .file name
  else if fs.hasFolder name then .folder name
  else .nothing name

def enter (fs : Files) (here : Spot) (step : String) : Except Misuse Spot :=
  match here with
  | .file _ => .error .notFolder
  | .nothing _ => .error .fileNotFound
  | .folder name =>
    if step == "" || step == "." then .ok here
    else if step == ".." then .ok (.folder (parent name))
    else .ok (fs.spot (inFolder name step))

/-- Where a name leads in the end. No name has a zero character in it. -/
def find (fs : Files) (name : String) : Except Misuse Spot :=
  if name == "" then .error .fileNotFound
  else if name.toList.contains '\x00' then .error .format
  else (name.splitOn "/").foldlM fs.enter (.folder (if name.startsWith "/" then "/" else ""))

def read (fs : Files) (name : String) : Except Misuse Content := do
  match ← fs.find name with
  | .file name => (fs.contents.lookup name).elim (.error .fileNotFound) .ok
  | .folder _ => .error .isFolder
  | .nothing _ => .error .fileNotFound

/-- The name under which a file is written. A slash at the end asks for a folder. -/
def target (fs : Files) (name : String) : Except Misuse String :=
  match fs.find name with
  | .ok (.file name) | .ok (.nothing name) => .ok name
  | .ok (.folder _) => .error .isFolder
  | .error m =>
    match name.endsWith "/", fs.find (name.dropEndWhile '/').toString with
    | true, .ok (.nothing _) => .error .isFolder
    | _, _ => .error m

def write (fs : Files) (name : String) (c : Content) : Except Misuse Files := do
  return { fs with contents := Types.upsert (← fs.target name) c fs.contents }

end Files

end Chalkboard.CommandLine
