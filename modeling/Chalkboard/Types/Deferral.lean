import Chalkboard.Types.Registry

/-! Pointer targets that were left open. After the declarations are read, each open name is looked up
and the pointer is settled in place, so every type that contains it sees the change. -/

namespace Chalkboard.Types

/-- Whether an open target is reachable, as long as calls nest no deeper than some depth. A pointer, array or
synonym that is on the trail is not entered again. -/
def Graph.deferralsWithin (g : Graph) : Nat → TypeId → (trail : List TypeId) → Except Fault Bool
  | 0, _, _ => .error (.misuse .endless)
  | depth + 1, t, trail =>
    let behind (u : TypeId) : Except Fault Bool :=
      if trail.contains t then .ok false else deferralsWithin g depth u (t :: trail)
    match g.node t with
    | .pointer (.deferred ..) => .ok true
    | .pointer (.settled target) => behind target
    | .array element _ => behind element
    | .synonym _ of => behind of
    | .tuple _ fields _ => fields.anyM fun (_, field) => deferralsWithin g depth field (t :: trail)
    | _ => .ok false

/-- The same without regard to how deep calls nest. -/
def Graph.hasDeferralsFrom (g : Graph) : Nat → TypeId → (trail : List TypeId) → Bool
  | 0, _, _ => false
  | fuel + 1, t, trail =>
    match g.node t with
    | .pointer (.deferred ..) => true
    | .pointer (.settled target) => !trail.contains t && hasDeferralsFrom g fuel target (t :: trail)
    | .array element _ => !trail.contains t && hasDeferralsFrom g fuel element (t :: trail)
    | .synonym _ of => !trail.contains t && hasDeferralsFrom g fuel of (t :: trail)
    | .tuple _ fields _ => fields.any fun (_, field) => hasDeferralsFrom g fuel field (t :: trail)
    | _ => false

/-- Between two pointers a walk goes down by value, and it goes through each pointer once. -/
def Graph.walkFuel (g : Graph) : Nat := (g.nodes.size + 2) * (g.nodes.size + 2)

def Graph.hasDeferrals (g : Graph) (t : TypeId) (trail : List TypeId := []) : Bool :=
  g.hasDeferralsFrom g.walkFuel t trail

/-- Looks up an open name. What stands there must itself be a type. -/
def lookUpIn (side : Side) (name : String) : TypesM TypeId := do
  match ← ((← get).home side).entry name with
  | .settled t => return t
  | .deferred .. => throw (.misuse .operands)

def lookUp (name : String) : TypesM TypeId := do lookUpIn (← get).side name

/-- How deep the settling of targets may nest before it counts as endless. -/
def settleDepth : Nat := callDepth

/-- Settles the open targets below a type. The trail is dropped where a pointer is followed. An array
at the end of a pointer, or by itself, cannot be asked: it expects to be told the trail. -/
def settleFrom : Nat → TypeId → Option (List TypeId) → TypesM Unit
  | 0, _, _ => throw (.misuse .endless)
  | fuel + 1, t, trail? => do
    let trail := trail?.getD []
    match (← get).graph.node t with
    | .pointer (.deferred side name) =>
      let target ← lookUpIn side name
      modify fun s => { s with graph := s.graph.set t (.pointer (.settled target)) }
    | .pointer (.settled target) =>
      if (← get).graph.hasDeferrals target (t :: trail) then settleFrom fuel target none
    | .array element _ =>
      if trail?.isNone then throw (.misuse .noTrail)
      if (← get).graph.hasDeferrals element (t :: trail) then
        settleFrom fuel element (some (t :: trail))
    | .synonym _ of =>
      if (← get).graph.hasDeferrals of (t :: trail) then settleFrom fuel of (some (t :: trail))
    | .tuple _ fields _ =>
      fields.forM fun (_, field) => do
        if (← get).graph.hasDeferrals field (t :: trail) then
          settleFrom fuel field (some (t :: trail))
    | _ => pure ()

def settle (t : TypeId) : TypesM Unit := settleFrom settleDepth t none

def settleAllWithin (depth : Nat) : TypesM Unit := do
  (← get).registry.types.forM fun (name, entry) => do
    match entry with
    | .deferred .. => throw (.typing (.stillDeferred name))
    | .settled t => if (← get).graph.hasDeferrals t then settleFrom depth t none

def settleAll : TypesM Unit := settleAllWithin settleDepth

end Chalkboard.Types
