import Chalkboard.Value.Operators

/-! Types form a graph. A node names its parts by their place in the graph; every part but a pointer's
target was there before the node, so containment by value goes down strictly and ends. Only pointers
can close a cycle, and only through a target that was left open and settled later. -/

namespace Chalkboard.Types

open Syntax (Expr)

abbrev TypeId := Nat

/-- An end of an axis: known, or an expression that waits for the declaration to be run. -/
inductive Limit where
  | known (value : Value)
  | pending (e : Expr)

structure Axis where
  low : Limit
  high : Limit

/-- There can be two registries of names over one graph. -/
inductive Side where
  | near
  | far
  deriving DecidableEq, Repr

/-- What a pointer points to: a type, or a name to be looked up once all types are declared, in the
registry that did not know it. -/
inductive Target where
  | settled (type : TypeId)
  | deferred (home : Side) (name : String)
  deriving DecidableEq, Repr

inductive Node where
  | int
  | real
  | bool
  | char
  | pointer (target : Target)
  | array (element : TypeId) (axes : List Axis)
  | tuple (name : Option String) (fields : List (String × TypeId)) (size : Value)
  | enum (name : Option String) (constants : List (String × Nat))
  | synonym (name : Option String) (of : TypeId)

instance : Inhabited Node := ⟨.int⟩

structure Graph where
  nodes : Array Node

namespace Graph

def basic : Graph := ⟨#[.int, .real, .bool, .char]⟩

def node (g : Graph) (t : TypeId) : Node := g.nodes.getD t .int

def add (g : Graph) (n : Node) : TypeId × Graph := (g.nodes.size, ⟨g.nodes.push n⟩)

def set (g : Graph) (t : TypeId) (n : Node) : Graph := ⟨g.nodes.setIfInBounds t n⟩

end Graph

def Limit.display : Limit → Except Misuse String
  | known value => value.display
  | pending e => .ok e.display

def Axis.display (a : Axis) : Except Misuse String := do
  return s!"ArrayAxis({← a.low.display}, {← a.high.display})"

def Axis.span (a : Axis) : Except Misuse String := do
  return (← a.low.display) ++ ".." ++ (← a.high.display)

def Limit.value : Limit → Except Fault Value
  | known value => .ok value
  | pending _ => .error (.typing .pendingAxis)

def nameText (name : Option String) : String := name.getD "None"

def deferredText (name : String) : String := s!"Deferred({name})"

/-- The text of a type. It follows pointers, arrays and synonyms, one part each, so a text longer than
the graph has gone round a cycle and has no end. -/
def Graph.textFrom (g : Graph) : Nat → TypeId → Except Misuse String
  | 0, _ => .error .endless
  | fuel + 1, t =>
    match g.node t with
    | .int => .ok "IntType"
    | .real => .ok "RealType"
    | .bool => .ok "BoolType"
    | .char => .ok "CharType"
    | .pointer (.deferred _ name) => .ok s!"PointerOf({deferredText name})"
    | .pointer (.settled target) => do return s!"PointerOf({← textFrom g fuel target})"
    | .array element axes => do
      let spans ← axes.mapM Axis.span
      return s!"ArrayOf({← textFrom g fuel element}, {Text.bracketed spans})"
    | .tuple name .. => .ok s!"Tuple:{nameText name}"
    | .enum name _ => .ok s!"Enum:{nameText name}"
    | .synonym _ of => do return s!"Synonym:{← textFrom g fuel of}"

def Graph.text (g : Graph) (t : TypeId) : Except Fault String :=
  liftMisuse (g.textFrom (g.nodes.size + 1) t)

def Graph.targetText (g : Graph) : Target → Except Fault String
  | .settled t => g.text t
  | .deferred _ name => .ok (deferredText name)

def Node.kind : Node → String
  | int => "<class 'tomos.ayed2.ast.types.basic.IntType'>"
  | real => "<class 'tomos.ayed2.ast.types.basic.RealType'>"
  | bool => "<class 'tomos.ayed2.ast.types.basic.BoolType'>"
  | char => "<class 'tomos.ayed2.ast.types.basic.CharType'>"
  | pointer _ => "<class 'tomos.ayed2.ast.types.basic.PointerOf'>"
  | array .. => "<class 'tomos.ayed2.ast.types.array.ArrayOf'>"
  | tuple .. => "<class 'tomos.ayed2.ast.types.t_tuple.Tuple'>"
  | enum .. => "<class 'tomos.ayed2.ast.types.enum.Enum'>"
  | synonym .. => "<class 'tomos.ayed2.ast.types.synonym.Synonym'>"

def deferredKind : String := "<class 'tomos.ayed2.ast.types.registry.TypeRegistry.Deferred'>"

/-- Follows synonyms down. The parts stand before the whole, so the place bounds the walk. -/
def Graph.strip (g : Graph) : Nat → TypeId → TypeId
  | 0, t => t
  | fuel + 1, t =>
    match g.node t with
    | .synonym _ of => strip g fuel of
    | _ => t

def Graph.isPointer (g : Graph) (t : TypeId) : Bool :=
  match g.node (g.strip (g.nodes.size + 1) t) with
  | .pointer _ => true
  | _ => false

/-- How many synonyms may stand between a synonym and the type it stands for. -/
def synonymLimit : Nat := 10

/-- Goes down while there are synonyms; the fuel is what is left of the limit. -/
def Graph.closureFrom (g : Graph) : Nat → TypeId → Except Fault TypeId
  | 0, _ => .error (.synonym (.tooLong synonymLimit))
  | fuel + 1, t =>
    match g.node t with
    | .synonym _ of => closureFrom g fuel of
    | _ => .ok t

/-- The type behind a synonym; any other type stands for itself. -/
def Graph.closure (g : Graph) (t : TypeId) : Except Fault TypeId :=
  match g.node t with
  | .synonym _ of => g.closureFrom synonymLimit of
  | _ => .ok t

end Chalkboard.Types
