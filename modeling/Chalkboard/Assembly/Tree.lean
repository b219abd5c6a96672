import Chalkboard.Assembly.TypePart

/-! Putting expressions, sentences and declarations together from parts, with the checks that keep out
what does not fit. -/

namespace Chalkboard.Assembly

open Syntax (Lexeme Expr Variable Step LiteralKind UnaryOp BinaryOp)

def malformed {α : Type} (line : Option Nat) (problem : SyntaxProblem) : Except Fault α :=
  .error (.malformed line problem)

def asExpr : Part → Except Fault Expr
  | .expr e => .ok e
  | _ => .error (.misuse .wrongPart)

def asVariable? : Part → Option Variable
  | .expr (.access name path) => some ⟨name, path⟩
  | _ => none

def unary (op : String) (operand : Part) : Except Fault Part := do
  return .expr (.unary (UnaryOp.ofText op) (← asExpr operand))

def binary (left : Part) (op : String) (right : Part) : Except Fault Part := do
  return .expr (.binary (← asExpr left) (BinaryOp.ofText op) (← asExpr right))

def lazy (body : Part) : Except Fault Part := do return .expr (.lazy (← asExpr body))

def assign (g : Types.Graph) (place value : Part) : Except Fault Part :=
  match asVariable? place, value with
  | none, _ => malformed place.guessLine (.destinationNotVariable (place.kindPath g))
  | some v, .expr e => .ok (.assign v e)
  | some _, p => malformed p.guessLine (.valueNotExpression (p.kindPath g))

/-- The last sentence of a block is told what comes next; plain things cannot be told. -/
def linkLast (block : List Part) : Except Fault Unit :=
  match block.getLast? with
  | some (.plain _) | some (.token _) | some (.list _) | some (.group _) =>
    .error (.misuse .missingPart)
  | _ => .ok ()

def branch (guard yes no : Part) : Except Fault Part := do
  match guard, yes, no with
  | .expr guard, .list yes, .list no =>
    linkLast yes
    linkLast no
    return .branch guard yes no
  | .expr _, yes, _ => malformed yes.guessLine .branchesNotLists
  | guard, _, _ => malformed guard.guessLine .guardNotExpression

def loop (guard body : Part) : Except Fault Part := do
  match guard, body with
  | .expr guard, .list body =>
    if body.isEmpty then malformed guard.line .emptyBlock
    linkLast body
    return .loop guard body
  | .expr _, body => malformed body.guessLine .blockNotList
  | guard, _ => malformed guard.guessLine .guardNotExpression

def direction? : Part → Option Bool
  | .plain v =>
    match v.equal (.bool true), v.equal (.bool false) with
    | .ok true, _ => some true
    | _, .ok true => some false
    | _, _ => none
  | _ => none

def count (place start stop up body : Part) : Except Fault Part := do
  let some v := asVariable? place | malformed place.guessLine .loopVariableNotVariable
  let .expr start := start | malformed (guessFirst [start, place]) .startNotExpression
  let .expr stop := stop | malformed (guessFirst [stop, place]) .endNotExpression
  let .list body := body | malformed body.guessLine .blockNotList
  if body.isEmpty then malformed place.guessLine .emptyBlock
  let some up := direction? up | malformed (guessFirst [up, place]) .directionNotBool
  linkLast body
  return .count v start stop up body

def declaration (place type : Part) : Except Fault Part :=
  match asVariable? place, type with
  | some v, .type t => .ok (.declaration v t)
  | _, _ => .error (.misuse .invalidField)

/-- A step of a path: through a pointer, into an array, or into a tuple. -/
inductive StepPart where
  | deref
  | index (items : List Part)
  | field (name : String)

def asIndex (g : Types.Graph) : Part → Except Fault Expr
  | .expr e => .ok e
  | p => do return .stray (← p.display g) (← p.text g) (p.kindPath g)

def StepPart.step (g : Types.Graph) : StepPart → Except Fault Step
  | .deref => .ok .deref
  | .index items => do return .index (← items.mapM (asIndex g))
  | .field name => .ok (.field name)

def access (g : Types.Graph) (name : Lexeme) (path : List StepPart) : Except Fault Part := do
  return .expr (.access name (← path.mapM (StepPart.step g)))

end Chalkboard.Assembly
