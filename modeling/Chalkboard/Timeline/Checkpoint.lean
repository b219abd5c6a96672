import Chalkboard.Syntax.Lister
import Chalkboard.Text.Blank
import Chalkboard.Text.Lines
import Chalkboard.Text.WordChar

/-! Checkpoints: lines with a comment that says so mark the last sentence of the line. -/

namespace Chalkboard.Timeline

open Syntax (Item Program)

def checkpointWord : List Char := "checkpoint".toList

def startsWithWord (cs : List Char) : Bool :=
  let rest := cs.dropWhile Text.isBlank
  checkpointWord.isPrefixOf rest &&
    (match rest.drop checkpointWord.length with
      | [] => true
      | c :: _ => !Text.isWordChar c)

def asksCheckpoint : List Char → Bool
  | '/' :: '/' :: cs => startsWithWord cs || asksCheckpoint ('/' :: cs)
  | _ :: cs => asksCheckpoint cs
  | [] => false

def lastOnLine (items : List Item) (line : Nat) : Option Nat :=
  (items.zipIdx.reverse.find? fun (i, _) => i.action.line == line).map (·.2)

/-- What detection has found so far: what it printed, the places marked, and how many lines had nothing
to mark. -/
structure Detection where
  printed : List String := []
  marked : List Nat := []
  errors : Nat := 0

/-- Marks the sentence of a line. A declaration cannot be marked. -/
def mark (items : Array Item) (found : Detection) (line : Nat) : Detection × Except Fault Unit :=
  match lastOnLine items.toList line with
  | none =>
    ({ found with printed := found.printed ++ [s!"ERROR: Couldn't find sentence for line {line}"],
                  errors := found.errors + 1 }, .ok ())
  | some place =>
    match items[place]? with
    | some ⟨.perform s, _, _, _⟩ =>
      let text := s!"Found checkpoint for line {line}, on sentence {s.display}"
      ({ found with printed := found.printed ++ [text], marked := place :: found.marked }, .ok ())
    | _ => (found, .error (.misuse .missingPart))

def markAll (items : Array Item) : Detection → List Nat → Detection × Except Fault Unit
  | found, [] => (found, .ok ())
  | found, line :: lines =>
    match mark items found line with
    | (found, .ok _) => markAll items found lines
    | failed => failed

def detect (p : Program) (source : String) : Detection × Except Fault Unit :=
  let lines := (Text.fileLines source).zipIdx 1
  let asked := (lines.filter fun (l, _) => asksCheckpoint l.toList).map (·.2)
  match markAll p.items.toArray {} asked with
  | (found, .ok _) =>
    if found.errors == 0 then (found, .ok ())
    else
      let text := s!"ERROR: {found.errors} errors detected. Fix them and try again."
      ({ found with printed := found.printed ++ [text] }, .error (.exit "1"))
  | failed => failed

/-- The sentences are listed first. -/
def checkpoints (p : Program) (source : String) : Detection × Except Fault Unit :=
  match p.listed with
  | .ok _ => detect p source
  | .error fault => ({}, .error fault)

end Chalkboard.Timeline
