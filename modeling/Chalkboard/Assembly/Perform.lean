import Chalkboard.Assembly.Tree
import Chalkboard.Run.Step
import Chalkboard.Syntax.Outline

/-! Performing and showing single parts. -/

namespace Chalkboard.Assembly

open Syntax (Expr Variable Builtin)
open Chalkboard.Types (TypesM Limits)
open Memory (MemoryM)
open Run (Frame Env)

/-- Where parts are tried out one after another. -/
structure Bench where
  types : Types := {}
  memory : Memory := {}

abbrev BenchM := ExceptT Fault (StateM Bench)

def onTypes {α : Type} (m : TypesM α) : BenchM α := fun b =>
  let (result, types) := m.run b.types
  (result, { b with types := types })

def onMemory {α : Type} (m : MemoryM α) : BenchM α := fun b =>
  let (result, memory) := m.run b.memory
  (result, { b with memory := memory })

def evaluate (p : Part) : BenchM Value := do
  let b ← get
  match p with
  | .expr e => Run.evalExpr ⟨b.types, some b.memory, true⟩ e
  | p => throw (.noBehaviour (← p.text b.types.graph) (p.kindPath b.types.graph))

def Part.name? : Part → Option String
  | .assign place _ => some place.name.text
  | .call name _ => some name.text
  | .declaration place _ => some place.name.text
  | .typeDeclaration name _ => some name.text
  | _ => none

/-- The argument of a call as a variable. Some parts that are none have a name that is looked up
first. -/
def argument (p : Part) : BenchM Variable := do
  match asVariable? p, p.name? with
  | some v, _ => return v
  | none, some name =>
    if ((← get).memory.stackCell? name).isNone then throw (.undeclared name)
    throw (.misuse .missingPart)
  | none, none => throw (.misuse .missingPart)

def callBuiltin (limits : Limits) (name : String) (arguments : List Part) : BenchM Unit := do
  let some builtin := (match name with
    | "alloc" => some Builtin.alloc
    | "free" => some Builtin.free
    | _ => none) | throw (.runtime (.unknownCall name))
  match arguments with
  | [] => throw (.misuse .noSuchPart)
  | p :: _ =>
    let v ← argument p
    let frame : Frame := ⟨(← get).types, limits, true⟩
    match builtin with
    | .alloc => onMemory (Run.alloc frame v)
    | .free => onMemory (Run.free frame v)

def perform (limits : Limits) (p : Part) : BenchM (Option Part) := do
  let frame : Frame := ⟨(← get).types, limits, true⟩
  match p with
  | .skip _ => return none
  | .assign v e =>
    let value ← evaluate (.expr e)
    onMemory (Run.writeVariable frame v value)
    return none
  | .call name arguments =>
    callBuiltin limits name.text arguments
    return none
  | .branch guard yes no =>
    return if (← evaluate (.expr guard)).truthy then yes.head? else no.head?
  | .loop guard body =>
    return if (← evaluate (.expr guard)).truthy then body.head? else none
  | .count v start stop up body =>
    let first ← evaluate (.expr start)
    let last ← evaluate (.expr stop)
    if ← liftMisuse (if up then first.lessEqual last else first.moreEqual last) then
      onMemory (Run.writeVariable frame v first)
      return body.head?
    else return none
  | .declaration v t =>
    let b ← get
    if Run.isArray b.types.graph t then
      onTypes (settleAxes (fun types => ⟨types, some b.memory, true⟩) t)
    let g := (← get).types.graph
    onMemory (Memory.declare g limits v.name.text t)
    return none
  | p =>
    let _ ← evaluate p
    return none

def Part.isSentence : Part → Bool
  | .skip _ | .assign .. | .call .. | .branch .. | .loop .. | .count .. | .declaration .. => true
  | _ => false

def evaluateAll (env : Env) : Expr → Except Fault (List (Expr × Value))
  | .unary op operand => do
    let kept ← evaluateAll env operand
    let e := Expr.unary op operand
    return kept ++ [(e, ← Run.evalExpr env e)]
  | .binary left op right => do
    let e := Expr.binary left op right
    if op.isJunction then
      let kept := [left, right].map fun s => (Expr.lazy s, Value.lazy (.lazy s))
      return kept ++ [(e, ← Run.evalExpr env e)]
    else
      let onLeft ← evaluateAll env left
      let onRight ← evaluateAll env right
      return onLeft ++ onRight ++ [(e, ← Run.evalExpr env e)]
  | e => do return [(e, ← Run.evalExpr env e)]

mutual

def Part.outline (g : Types.Graph) : Part → Except Fault String
  | .branch guard yes no => do
    let yes ← outlineAll g yes
    let no ← outlineAll g no
    return Syntax.inSections s!"If(guard={guard.text})"
      [("then", Syntax.nonEmpty yes), ("else", Syntax.nonEmpty no)]
  | .loop guard body => do
    return Syntax.underTitle s!"While(guard={guard.text})" (← outlineAll g body)
  | .count place start stop up body => do
    let title ← (Part.count place start stop up []).display g
    return Syntax.underTitle title (← outlineAll g body)
  | p => p.display g

def outlineAll (g : Types.Graph) : List Part → Except Fault (List String)
  | [] => .ok []
  | p :: ps => do return (← p.outline g) :: (← outlineAll g ps)

end

end Chalkboard.Assembly
