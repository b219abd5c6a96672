import Chalkboard.Types.Shape

/-! How much room a type takes in memory. -/

namespace Chalkboard.Types

def Graph.elementSizeFrom (g : Graph) (size : TypeId → Except Fault Value) :
    Nat → TypeId → Except Fault Value
  | 0, t => size t
  | fuel + 1, t =>
    match g.node t with
    | .array element _ => elementSizeFrom g size fuel element
    | _ => size t

/-- How much room a type takes. The parts stand before the whole, so the place bounds the recursion. -/
def Graph.sizeFrom (g : Graph) : Nat → TypeId → Except Fault Value
  | 0, _ => .error (.misuse .endless)
  | fuel + 1, t =>
    match g.node t with
    | .real => .ok (.int 2)
    | .array element axes => do
      let count ← elementCount axes
      liftMisuse (count.mul (← g.elementSizeFrom (sizeFrom g fuel) fuel element))
    | .tuple _ _ size => .ok size
    | .synonym _ of => sizeFrom g fuel of
    | _ => .ok (.int 1)

def Graph.size (g : Graph) (t : TypeId) : Except Fault Value := g.sizeFrom (g.nodes.size + 1) t

def Graph.elementSize (g : Graph) (element : TypeId) : Except Fault Value :=
  g.elementSizeFrom g.size (g.nodes.size + 1) element

end Chalkboard.Types
