import Chalkboard.Fault
import Chalkboard.Syntax.Flow

/-! The listing of a program. A visitor goes down the tree of sentences and brings back what it came to, a
compound sentence before what is inside it. Every level takes a call inside another. -/

namespace Chalkboard.Syntax

/-- What is visited: the body of a program, or what stands in it. -/
inductive Stop where
  | body (declarations : List Declaration) (sentences : List Sentence)
  | action (a : Action)

namespace Stop

def children : Stop → List Stop
  | body declarations sentences =>
    declarations.map (fun d => action (.declare d)) ++ sentences.map fun s => action (.perform s)
  | action (.perform (.branch _ yes no)) => (yes ++ no).map fun s => action (.perform s)
  | action (.perform (.loop _ inner)) => inner.map fun s => action (.perform s)
  | action (.perform (.count _ _ _ _ inner)) => inner.map fun s => action (.perform s)
  | action _ => []

/-- A body is not listed itself. -/
def gathered : Stop → List (List Action) → List Action
  | body .., below => below.flatten
  | action a, below => a :: below.flatten

def visit : Nat → Stop → Except Fault (List Action)
  | 0, _ => .error (.misuse .endless)
  | depth + 1, stop => do
    let below ← stop.children.mapM (visit depth)
    return stop.gathered below

end Stop

def Program.listedWithin (depth : Nat) (p : Program) : Except Fault (List Action) :=
  Stop.visit depth (.body p.declarations p.sentences)

def Program.listed (p : Program) : Except Fault (List Action) := p.listedWithin callDepth

end Chalkboard.Syntax
