import Chalkboard.Types.Limits

/-! The registry: the names of types, and the constants of all enumerations under their own names.
Both keep the order in which they were entered. -/

namespace Chalkboard.Types

abbrev Entry := Target

structure Registry where
  types : List (String × Entry)
  constants : List (String × Constant)

/-- Writes an entry; one that is there already keeps its place. -/
def upsert {β : Type} (name : String) (b : β) : List (String × β) → List (String × β)
  | [] => [(name, b)]
  | (n, old) :: rest => if n == name then (n, b) :: rest else (n, old) :: upsert name b rest

theorem lookup_upsert {β : Type} (name : String) (b : β) (entries : List (String × β)) :
    (upsert name b entries).lookup name = some b := by
  induction entries with
  | nil => simp [upsert]
  | cons e rest ih =>
    obtain ⟨n, old⟩ := e
    by_cases h : n = name
    · subst h; simp [upsert]
    · have h' : (name == n) = false := by simpa using fun e => h e.symm
      simp [upsert, h, List.lookup_cons, h', ih]

namespace Registry

def basic : Registry :=
  ⟨[("int", .settled 0), ("real", .settled 1), ("bool", .settled 2), ("char", .settled 3)], []⟩

def isBasic (name : String) : Bool := basic.types.any (·.1 == name)

def quotedNames {β : Type} (entries : List (String × β)) : String :=
  Text.bracketed (entries.map fun e => Text.quoted e.1)

def unknownType (r : Registry) (name : String) : Fault :=
  .typing (.unknownType name (quotedNames r.types))

def entry (r : Registry) (name : String) : Except Fault Entry :=
  match r.types.lookup name with
  | some e => .ok e
  | none => .error (r.unknownType name)

def constant (r : Registry) (name : String) : Except Fault Constant :=
  match r.constants.lookup name with
  | some c => .ok c
  | none => .error (.typing (.unknownConstant name (quotedNames r.constants)))

def overlap {β γ : Type} (known : List (String × β)) (new : List (String × γ)) : List String :=
  ((new.map (·.1)).filter fun n => known.any (·.1 == n)).mergeSort (· ≤ ·)

def overlapFault (names : List String) : Fault :=
  .typing (.constantsOverlap (Text.braced (names.map Text.quoted)))

/-- Takes in the entries of another registry. The types are taken over before the constants are
compared. -/
def merge (r other : Registry) : Registry × Except Fault Unit :=
  let types := other.types.foldl (fun ts (n, e) => upsert n e ts) r.types
  match overlap r.constants other.constants with
  | [] => (⟨types, r.constants ++ other.constants⟩, .ok ())
  | names => ({ r with types := types }, .error (overlapFault names))

end Registry

end Chalkboard.Types

namespace Chalkboard

/-- The types at hand: the graph, and the names given to some of its nodes. A second registry can stand
by, for names that were left open in it. -/
structure Types where
  graph : Types.Graph := .basic
  registry : Types.Registry := .basic
  standby : Types.Registry := .basic
  /-- Which of the two registries is at hand. -/
  side : Types.Side := .near

namespace Types

/-- Work on the types that can fail. What was changed before a failure stays changed. -/
abbrev TypesM := ExceptT Fault (StateM Types)

/-- The type under a name; a name that is not known yet is left open. -/
def target (s : Types) (name : String) : Target :=
  (s.registry.types.lookup name).getD (.deferred s.side name)

def home (s : Types) (side : Side) : Registry :=
  if side == s.side then s.registry else s.standby

def turned (s : Types) : Types :=
  { s with
    registry := s.standby
    standby := s.registry
    side := match s.side with
      | .near => .far
      | .far => .near }

def constantNames (s : Types) : List String :=
  s.registry.types.flatMap fun
    | (_, .settled t) => match s.graph.node t with
      | .enum _ constants => constants.map (·.1)
      | _ => []
    | (_, .deferred ..) => []

def add (n : Node) : TypesM TypeId := do
  let s ← get
  let (t, g) := s.graph.add n
  set { s with graph := g }
  return t

def Node.isUserDefined : Node → Bool
  | .tuple .. | .enum .. | .synonym .. => true
  | _ => false

def Node.named (name : String) : Node → Node
  | .tuple _ fields size => .tuple (some name) fields size
  | .enum _ constants => .enum (some name) constants
  | .synonym _ of => .synonym (some name) of
  | n => n

/-- Enters the constants of an enumeration that has no name yet, unless one of them is known. -/
def enterConstants (owner : TypeId) (constants : List (String × Nat)) : TypesM Unit := do
  let s ← get
  match Registry.overlap s.registry.constants constants with
  | [] =>
    let new := constants.map fun (c, n) => (c, (⟨owner, none, c, n⟩ : Constant))
    set { s with registry := { s.registry with constants := s.registry.constants ++ new } }
  | names => throw (Registry.overlapFault names)

def nameConstants (owner : TypeId) (name : String) (constants : List (String × Constant)) :
    List (String × Constant) :=
  constants.map fun (c, k) =>
    (c, if k.owner == owner then { k with enumeration := some name } else k)

def onStandby {α : Type} (m : TypesM α) : TypesM α := fun s =>
  let (result, s) := m.run s.turned
  (result, s.turned)

def mergeStandby : TypesM Unit := do
  let s ← get
  let (registry, result) := s.registry.merge s.standby
  set { s with registry := registry }
  result

def enter (name : String) (e : Entry) : TypesM Unit :=
  modify fun s => { s with registry := { s.registry with types := upsert name e s.registry.types } }

def enterConstantsOf (t : TypeId) : Node → TypesM Unit
  | .enum _ constants => enterConstants t constants
  | _ => pure ()

/-- Gives a user-defined type a name. Constants are entered before the type's limits are checked. -/
def register (limits : Limits) (name : String) (t : TypeId) : TypesM Unit := do
  let s ← get
  let node := s.graph.node t
  if !Node.isUserDefined node then
    throw (.typing (.notUserDefined (← s.graph.text t)))
  else if s.registry.types.any (·.1 == name) then
    throw (.typing (.alreadyRegistered name))
  else
    enterConstantsOf t node
    s.graph.checkLimits limits t
    modify fun s =>
      { s with
        graph := s.graph.set t (Node.named name node)
        registry :=
          { types := s.registry.types ++ [(name, .settled t)]
            constants := nameConstants t name s.registry.constants } }

end Types

end Chalkboard
