import Chalkboard.Memory.Basic
import Chalkboard.Number.Reading
import Chalkboard.Types.Registry

/-! The value of an expression, and the cell that a variable with its path leads to. Index expressions
make each need the other. -/

namespace Chalkboard.Run

open Syntax (Expr Step Variable Lexeme LiteralKind UnaryOp BinaryOp)
open Chalkboard.Types (TypeId Graph Node)
open Memory (Address Cell Root Location)

/-- What an expression is evaluated in. While a program is read there is no memory yet, and a memory
can be without the means to evaluate indexes. -/
structure Env where
  types : Types
  memory : Option Memory
  indexing : Bool := true

def literalValue (types : Types) (kind : LiteralKind) (text : String) : Except Fault Value :=
  match kind with
  | .enum => (types.registry.constant text).map .constant
  | .boolean =>
    if text == "true" then .ok (.bool true)
    else if text == "false" then .ok (.bool false)
    else .error (.evaluation (.boolean text))
  | .null => if text == "null" then .ok .null else .error (.evaluation (.null text))
  | .char => if text.length == 1 then .ok (.text text) else .error (.evaluation (.char text))
  | .integer =>
    if text == "inf" then .ok (.real Number.infinity)
    else (Number.readInt? text).elim (.error (.evaluation (.integer text))) (.ok ∘ .int)
  | .real =>
    if text == "inf" then .ok (.real Number.infinity)
    else (Number.readReal? text).elim (.error (.evaluation (.real text))) (.ok ∘ .real)

def unaryValue (op : UnaryOp) (v : Value) : Except Fault Value :=
  match op with
  | .negative => liftMisuse v.negate
  | .positive => liftMisuse v.plus
  | .not => .ok (.bool !v.truthy)
  | .other text => .error (.evaluation (.unaryOperator text))

def binaryValue (op : BinaryOp) (a b : Value) : Except Fault Value :=
  match op with
  | .times => liftMisuse (a.mul b)
  | .sum => liftMisuse (a.add b)
  | .minus => liftMisuse (a.sub b)
  | .divide => liftMisuse (a.divide b)
  | .remainder => liftMisuse (a.remainder b)
  | .equal => liftMisuse ((a.equal b).map .bool)
  | .notEqual => liftMisuse ((a.equal b).map fun e => .bool !e)
  | .less => liftMisuse ((a.less b).map .bool)
  | .lessEqual => liftMisuse ((a.lessEqual b).map .bool)
  | .more => liftMisuse ((a.more b).map .bool)
  | .moreEqual => liftMisuse ((a.moreEqual b).map .bool)
  | op => .error (.evaluation (.binaryOperator op.text))

def settledBy (op : BinaryOp) (left : Value) : Option Value :=
  match op with
  | .or => if left.truthy then some (.bool true) else none
  | .and => if left.truthy then none else some (.bool false)
  | _ => none

def follow (g : Graph) (m : Memory) (v : Variable) (c : Cell) : Except Fault (Location × Cell) := do
  if !g.isPointer c.type then throw (.misuse .notPointer)
  let value ← c.value g
  match value with
  | .address a =>
    match m.heapCell? a with
    | some block => return (⟨.heap a, []⟩, block)
    | none => throw (.memory (.dangling v.text a.text))
  | _ => throw (.memory (.dangling v.text (← liftMisuse value.plain)))

def element (g : Graph) (here : Location) (c : Cell) (indexes : List Value) : Except Fault (Location × Cell) :=
  match g.node c.type with
  | .array _ axes => do
    let i ← Cell.countOf (← Types.flatten axes indexes)
    match c.part? i with
    | some part => return (⟨here.root, here.path ++ [i]⟩, part)
    | none => throw (.misuse .noSuchPart)
  | _ => .error (.misuse .notArray)

def member (g : Graph) (v : Variable) (here : Location) (c : Cell) (field : String) :
    Except Fault (Location × Cell) := do
  match c with
  | .tuple _ parts =>
    match parts.findIdx? (·.1 == field) with
    | some i => return (⟨here.root, here.path ++ [i]⟩, (c.part? i).getD c)
    | none => throw (.memory (.noField v.text field))
  | _ => throw (.memory (.notTuple v.text (← c.display g) (← g.text c.type) field))

def isArray (g : Graph) (t : TypeId) : Bool :=
  match g.node t with
  | .array .. => true
  | _ => false

def leafValue : Cell → Except Fault Value
  | .leaf _ _ v => .ok v
  | .tuple .. => .error (.misuse .wholeTuple)
  | c => .error (.memory (.wholeRead c.kind))

mutual

def evalExpr (env : Env) : Expr → Except Fault Value
  | .literal kind word => literalValue env.types kind word.text
  | .access name path =>
    match env.memory with
    | none => .error (.misuse .noMemory)
    | some m =>
      match m.stackCell? name.text with
      | none => .error (.undeclared name.text)
      | some c => do
        let (_, c) ← walk env m ⟨name, path⟩ ⟨.stack name.text, []⟩ c path
        leafValue c
  | .unary op operand => do unaryValue op (← evalExpr env operand)
  | .binary left op right => do
    let a ← evalExpr env left
    match settledBy op a with
    | some v => return v
    | none =>
      let b ← evalExpr env right
      if op.isJunction then return b else binaryValue op a b
  | .lazy body => .ok (.lazy (.lazy body))
  | .stray _ text kind => .error (.noBehaviour text kind)

def evalAll (env : Env) : List Expr → Except Fault (List Value)
  | [] => .ok []
  | e :: es => do return (← evalExpr env e) :: (← evalAll env es)

/-- Takes the steps of a path, starting at a cell. `v` is the whole variable, for messages. -/
def walk (env : Env) (m : Memory) (v : Variable) (here : Location) (c : Cell) :
    List Step → Except Fault (Location × Cell)
  | [] => .ok (here, c)
  | .deref :: steps => do
    let (here, c) ← follow env.types.graph m v c
    walk env m v here c steps
  | .index indexes :: steps => do
    if !isArray env.types.graph c.type then throw (.misuse .notArray)
    if !env.indexing then throw (.runtime .noEvaluator)
    let values ← evalAll env indexes
    let (here, c) ← element env.types.graph here c values
    walk env m v here c steps
  | .field name :: steps => do
    let (here, c) ← member env.types.graph v here c name
    walk env m v here c steps

end

def locate (env : Env) (m : Memory) (v : Variable) : Except Fault (Location × Cell) :=
  match m.stackCell? v.name.text with
  | none => .error (.undeclared v.name.text)
  | some c => walk env m v ⟨.stack v.name.text, []⟩ c v.path

end Chalkboard.Run
