/-! Lines of a text. -/

namespace Chalkboard.Text

def unifyLineEnds : List Char → List Char
  | '\r' :: '\n' :: cs => '\n' :: unifyLineEnds cs
  | '\r' :: cs => '\n' :: unifyLineEnds cs
  | c :: cs => c :: unifyLineEnds cs
  | [] => []

def splitLines : List Char → List (List Char)
  | [] => [[]]
  | c :: cs =>
    if c == '\n' then [] :: splitLines cs
    else match splitLines cs with
      | line :: lines => (c :: line) :: lines
      | [] => [[c]]

def fileText (s : String) : String := String.ofList (unifyLineEnds s.toList)

def fileLines (s : String) : List String := (splitLines (unifyLineEnds s.toList)).map String.ofList

end Chalkboard.Text
