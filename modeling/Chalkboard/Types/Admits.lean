import Chalkboard.Types.Graph

/-! Which values a cell of a type may hold. -/

namespace Chalkboard.Types

/-- Whether a cell of this type may hold the value. Tuples admit none, not even to ask. -/
def Graph.admitsFrom (g : Graph) (v : Value) : Nat → TypeId → Except Fault Bool
  | 0, _ => .error (.misuse .endless)
  | fuel + 1, t =>
    match g.node t with
    | .int => match v with
      | .int _ => .ok true
      | .real x => .ok (x == Number.infinity)
      | _ => .ok false
    | .real => match v with
      | .real _ => .ok true
      | _ => .ok false
    | .bool => match v with
      | .bool _ => .ok true
      | _ => .ok false
    | .char => match v with
      | .text s => .ok (s.length == 1)
      | _ => .ok false
    | .pointer _ => match v with
      | .null | .address _ => .ok true
      | _ => .ok false
    | .enum _ constants => match v with
      | .text s => .ok (constants.any (·.1 == s))
      | .constant c => .ok (c.owner == t && constants.any (·.1 == c.name))
      | _ => .ok false
    | .array element _ => admitsFrom g v fuel element
    | .synonym _ of => admitsFrom g v fuel of
    | .tuple .. => .error (.misuse .notAdmitted)

def Graph.admits (g : Graph) (t : TypeId) (v : Value) : Except Fault Bool :=
  g.admitsFrom v (g.nodes.size + 1) t

end Chalkboard.Types
