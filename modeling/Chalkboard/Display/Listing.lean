import Chalkboard.Display.Colour
import Chalkboard.Run.Machine
import Chalkboard.Text.Lines

/-! Showing the code while it runs: the sentence to come and its line, or the whole text with an arrow
at that line. -/

namespace Chalkboard.Display

open Chalkboard.Types (Graph)
open Syntax (Item Action)

abbrev PrintM := ExceptT Fault (StateM String)

def put (s : String) : PrintM Unit := modify (· ++ s)

def putAction (g : Graph) (before : String) (a : Action) : PrintM Unit := do
  put before
  put ((← a.display g) ++ " " ++ colourEnd ++ "\n")

def lineNumber (n : Nat) : String :=
  String.ofList (Number.padLeft 3 ' ' (' ' :: (toString n).toList))

def listingLine (current n : Nat) (text : String) : String :=
  let number := lineNumber n
  let start := if n == current then Colour.green.start ++ "->" ++ number ++ colourEnd else "  " ++ number
  start ++ " " ++ text ++ "\n"

def listWhole (g : Graph) (lines : List String) (a : Action) : PrintM Unit := do
  put "<clear>\n"
  for (text, n) in lines.zipIdx 1 do
    put (listingLine a.line n text)
  put (String.ofList (List.replicate 80 '-') ++ "\n")
  put "Abstract-Sentence to run:\n"
  putAction g ("\t " ++ Colour.header.start ++ " ") a

def listSentence (g : Graph) (lines : List String) (a : Action) : PrintM Unit := do
  putAction g (Colour.cyan.start ++ " ") a
  match lines[a.line - 1]? with
  | some text => put (Colour.blue.start ++ " " ++ text ++ " " ++ colourEnd ++ "\n")
  | none => throw (.misuse .noSuchPart)

def lister (g : Graph) (source : String) (whole : Bool) (items : Array Item) : Run.Watch String :=
  let lines := Text.fileLines source
  { before := fun place _ =>
      match items[place]? with
      | some item => if whole then listWhole g lines item.action else listSentence g lines item.action
      | none => pure () }

end Chalkboard.Display
