import Chalkboard.Assembly.Part
import Chalkboard.Run.Eval
import Chalkboard.Types.Admits
import Chalkboard.Types.Build

/-! Making types from parts. -/

namespace Chalkboard.Assembly

open Chalkboard.Types (TypeId Graph Node Target Limit Axis TypesM)
open Run (Env)

def pointerOf : Part → TypesM Part
  | .type t => return .type (← Types.add (.pointer (.settled t)))
  | .deferred side name => return .type (← Types.add (.pointer (.deferred side name)))
  | _ => throw (.misuse .wrongPart)

def limitOf : Part → TypesM Limit
  | .plain (.int i) => return .known (.int i)
  | .plain (.bool b) => return .known (.bool b)
  | .expr e => return .pending e
  | _ => throw (.misuse .wrongPart)

def axisOf (low high : Part) : TypesM Part := return .axis ⟨← limitOf low, ← limitOf high⟩

def itemsOf : Part → TypesM (List Part)
  | .list items | .group items => return items
  | .plain (.list vs) => return vs.map .plain
  | .plain (.record fields) => return fields.map fun (name, _) => .plain (.text name)
  | .plain (.text s) => return s.toList.map fun c => .plain (.text (String.singleton c))
  | .token word => return word.text.toList.map fun c => .plain (.text (String.singleton c))
  | _ => throw (.misuse .operands)

def asAxis : Part → TypesM Axis
  | .axis a => return a
  | _ => throw (.misuse .wrongPart)

def arrayOf (of axes : Part) : TypesM Part := do
  let axes ← (← itemsOf axes).mapM asAxis
  match of with
  | .type t => return .type (← Types.add (.array t axes))
  | _ => throw (.misuse .wrongPart)

def Limit.evaluated (env : Env) : Limit → Except Fault Limit
  | .known v => .ok (.known v)
  | .pending e => (Run.evalExpr env e).map .known

def evaluateAxes (env : Env) : List Axis → List Axis × Except Fault Unit
  | [] => ([], .ok ())
  | a :: rest =>
    match Limit.evaluated env a.low with
    | .error e => (a :: rest, .error e)
    | .ok low =>
      match Limit.evaluated env a.high with
      | .error e => ({ a with low := low } :: rest, .error e)
      | .ok high =>
        let (rest, result) := evaluateAxes env rest
        (⟨low, high⟩ :: rest, result)

def settleAxes (env : Types → Env) (t : TypeId) : TypesM Unit := do
  let s ← get
  match s.graph.node t with
  | .array element axes =>
    let (axes, result) := evaluateAxes (env s) axes
    set { s with graph := s.graph.set t (.array element axes) }
    result
  | _ => throw (.misuse .missingPart)

def axesOf : Part → TypesM (TypeId × List Axis)
  | .type t => do
    match (← get).graph.node t with
    | .array element axes => return (element, axes)
    | _ => throw (.misuse .missingPart)
  | _ => throw (.misuse .missingPart)

def evaluatedAxes (p : Part) : TypesM (List Axis) := do
  let _ ← axesOf p
  if let .type t := p then settleAxes (fun types => ⟨types, some {}, false⟩) t
  return (← axesOf p).2

/-- What holds for an array type, and how many elements it had before its axes were evaluated. -/
structure ArrayProfile where
  text : Except Fault String
  before : Except Fault Value
  elements : Except Fault Value
  shape : Except Fault (List Value)
  elementSize : Except Fault Value
  lengths : List (Except Fault Value)
  axes : Except Fault String

def arrayProfile (p : Part) : TypesM ArrayProfile := do
  let before := Types.elementCount (← axesOf p).2
  try discard (evaluatedAxes p) catch _ => pure ()
  let (element, axes) ← axesOf p
  let g := (← get).graph
  return ⟨p.display g, before, Types.elementCount axes, Types.shape axes, g.elementSize element,
    axes.map (·.length), liftMisuse ((axes.mapM Axis.display).map Text.bracketed)⟩

def textOf? : Part → Option String
  | .plain (.text s) => some s
  | .token word => some word.text
  | _ => none

def enumOf (names : List Part) : TypesM Part := do
  let g := (← get).graph
  let names ← names.mapM fun p => match textOf? p with
    | some s => pure s
    | none => throw (.constantNotText (p.kindPath g))
  return .type (← Types.addEnum names)

/-- Enters a field; a name that equals a known one replaces its type. -/
def enterField (name type : Part) : List (Part × Part) → TypesM (List (Part × Part))
  | [] => return [(name, type)]
  | (n, old) :: rest => do
    let same ← match n, name with
      | .plain a, .plain b => liftMisuse (a.equal b)
      | a, b => pure ((textOf? a).isSome && textOf? a == textOf? b)
    if same then return (n, type) :: rest else return (n, old) :: (← enterField name type rest)

def checkFields (total : Value) : List (Part × Part) → TypesM (List (String × TypeId) × Value)
  | [] => return ([], total)
  | (name, type) :: rest => do
    let g := (← get).graph
    match textOf? name, type with
    | none, _ => throw (.typing (.fieldNameNotText (name.kindPath g)))
    | some name, .type t =>
      let total ← liftMisuse (total.add (← g.size t))
      let (fields, total) ← checkFields total rest
      return ((name, t) :: fields, total)
    | some _, other => throw (.typing (.fieldTypeNotType (other.kindPath g)))

def tupleOf (fields : List (Part × Part)) : TypesM Part := do
  let fields ← fields.foldlM (fun known (name, type) => enterField name type known) []
  if fields.isEmpty then throw (.typing .noFields)
  let (fields, size) ← checkFields (.int 0) fields
  return .type (← Types.add (.tuple none fields size))

/-- A tuple from a value that should map names to types. No plain value does. -/
def tupleFrom : Value → TypesM Part
  | .record fields => tupleOf (fields.map fun (name, v) => (.plain (.text name), .plain v))
  | v => throw (.typing (.fieldsNotMapping v.kind))

def synonymOf (p : Part) : TypesM Part := do
  match p with
  | .type t => return .type (← Types.add (.synonym none t))
  | p =>
    let g := (← get).graph
    throw (.synonym (.notType (← p.text g) (p.kindPath g)))

def named (name : String) : TypesM Part := return .type (← Types.lookUp name)

def nameOrDeferred (name : String) : TypesM Part := do
  match (← get).target name with
  | .settled t => return if t < 4 then .basicClass t else .type t
  | .deferred side name => return .deferred side name

def register (limits : Types.Limits) (name : String) : Part → TypesM Unit
  | .type t => Types.register limits name t
  | p => do throw (.typing (.notUserDefined (← p.text (← get).graph)))

/-- What holds for a part that is used as a type. -/
structure Profile where
  text : Except Fault String
  size : Except Fault Value
  pointer : Except Fault Bool
  deferrals : Except Fault Bool

def profile (g : Graph) : Part → Profile
  | .type t => ⟨g.text t, g.size t, .ok (g.isPointer t), g.deferralsWithin callDepth t []⟩
  | .basicClass t => ⟨.ok (g.node t).kind, g.size t, .ok false, .ok false⟩
  | p =>
    let missing : Fault := .misuse .missingPart
    ⟨p.display g, .error missing, .error missing, .error missing⟩

def checkLimits (limits : Types.Limits) : Part → TypesM Unit
  | .type t => do (← get).graph.checkLimits limits t
  | _ => if Types.exceeds limits.typeDepth 1 then throw (.limit .typeDepth) else pure ()

/-- The type behind a synonym; other types have none behind them. -/
def closure : Part → TypesM Part
  | .type t => do
    let g := (← get).graph
    match g.node t with
    | .synonym .. => return .type (← g.closure t)
    | _ => throw (.misuse .missingPart)
  | _ => throw (.misuse .missingPart)

def admits (g : Graph) (v : Value) : Part → Except Fault Bool
  | .type t | .basicClass t => g.admits t v
  | _ => .error (.misuse .missingPart)

def settle : Part → TypesM Part
  | .type t => do
    Types.settle t
    return .type t
  | .basicClass _ => throw (.misuse .noTrail)
  | _ => throw (.misuse .missingPart)

end Chalkboard.Assembly
