import Chalkboard.Syntax.Program

/-! The flow of a program: its declarations and sentences in one list, a compound sentence before the
sentences inside it, each with the place of what comes next. -/

namespace Chalkboard.Syntax

open Chalkboard.Types (Graph)

mutual

def Sentence.extent : Sentence → Nat
  | .branch _ yes no => 1 + extents yes + extents no
  | .loop _ body => 1 + extents body
  | .count _ _ _ _ body => 1 + extents body
  | _ => 1

def extents : List Sentence → Nat
  | [] => 0
  | s :: rest => s.extent + extents rest

end

inductive Action where
  | declare (d : Declaration)
  | perform (s : Sentence)

/-- An entry of the list. `inner` is where the body or the first branch starts, `other` where the
second branch starts; an empty block has no start. -/
structure Item where
  action : Action
  next : Option Nat
  inner : Option Nat := none
  other : Option Nat := none

def blockStart (start : Nat) (block : List Sentence) : Option Nat :=
  if block.isEmpty then none else some start

mutual

/-- The entries of a sentence that stands at `start` and is followed by `next`. The last sentence of a
branch goes on where the branching does; the last of a loop's body goes back to the loop. -/
def Sentence.items (start : Nat) (next : Option Nat) : Sentence → List Item
  | .branch guard yes no =>
    let noStart := start + 1 + extents yes
    ⟨.perform (.branch guard yes no), next, blockStart (start + 1) yes, blockStart noStart no⟩ ::
      (blockItems (start + 1) next yes ++ blockItems noStart next no)
  | .loop guard body =>
    ⟨.perform (.loop guard body), next, blockStart (start + 1) body, none⟩ ::
      blockItems (start + 1) (some start) body
  | .count place first last up body =>
    ⟨.perform (.count place first last up body), next, blockStart (start + 1) body, none⟩ ::
      blockItems (start + 1) (some start) body
  | s => [⟨.perform s, next, none, none⟩]

def blockItems (start : Nat) (next : Option Nat) : List Sentence → List Item
  | [] => []
  | s :: rest =>
    let after := if rest.isEmpty then next else some (start + s.extent)
    s.items start after ++ blockItems (start + s.extent) next rest

end

def declarationItems (start : Nat) (more : Bool) : List Declaration → List Item
  | [] => []
  | d :: rest =>
    let after := if rest.isEmpty && !more then none else some (start + 1)
    ⟨.declare d, after, none, none⟩ :: declarationItems (start + 1) more rest

def Program.items (p : Program) : List Item :=
  declarationItems 0 (!p.sentences.isEmpty) p.declarations ++
    blockItems p.declarations.length none p.sentences

def Action.line : Action → Nat
  | declare d => d.line
  | perform s => s.line

def Action.display (g : Graph) : Action → Except Fault String
  | declare d => d.display g
  | perform s => .ok s.display

end Chalkboard.Syntax
