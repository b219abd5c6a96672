import Chalkboard.Picture.Theme
import Chalkboard.Text.Wildcard

/-! Handing over: frame files to the film maker, and single pictures to a player. -/

namespace Chalkboard.Movie

/-- What the film maker is given. -/
structure Reel where
  files : List String
  framesPerSecond : Value
  path : String

namespace Reel

def codec : String := "libx264"

def bitrate : String := "5000k"

/-- The pattern that the names of frames fit. Two stars side by side would stand for folders. -/
def pattern (t : Picture.Theme) : Except Fault String :=
  match t.frameFormat with
  | .text format =>
    let pattern := "*." ++ format
    if (pattern.toList.zip (pattern.toList.drop 1)).contains ('*', '*') then .error (.misuse .format)
    else .ok pattern
  | _ => .error (.misuse .operands)

def gather (t : Picture.Theme) (folder : List String) (path : String) : Except Fault Reel := do
  let frames := folder.eraseDups.filter (Text.fitsPattern (← pattern t))
  match frames.mergeSort (fun a b => !(b < a)) with
  | [] => throw (.exit "0")
  | files => return ⟨files, t.framesPerSecond, path⟩

end Reel

/-- How a player takes a picture. -/
inductive Reception where
  | taken
  /-- The window was closed. -/
  | gone
  | failed (reason : String) (told : Option String)

/-- Shows a picture. A closed window ends the program without noise. -/
def play : Reception → Except Fault Unit
  | .taken => .ok ()
  | .gone => .error (.exit "1")
  | .failed reason told =>
    .error (.playing (reason ++ "\n\nMoviePy error: FFPLAY encountered the following error while " ++
      "previewing clip :\n\n " ++ told.getD "None"))

end Chalkboard.Movie
