import Chalkboard.Assembly.Tree
import Chalkboard.Reading.Program

/-! The rules by which parts become larger parts, each applied to any list of parts. -/

namespace Chalkboard.Assembly

open Syntax (Lexeme Expr Variable)
open Chalkboard.Types (TypesM Limits)
open Reading (Setting)

inductive Rule where
  | program
  | body
  | sentences
  | branch
  | loop
  | countUp
  | countDown
  | count
  | variableDeclaration
  | typeDeclaration
  | pointer
  | typeName
  | synonym
  | enumeration
  | tuple
  | field
  /-- Hands on its only part. -/
  | only
  /-- Hands on its first part. -/
  | first
  | call
  | assignment
  | binary
  | unary
  | expression
  | environment
  | place
  | member
  | deref
  | arrow
  | index
  | boolean
  | constant
  /-- A rule for one token, which a list is not. -/
  | single
  | skip
  | array
  | axes
  | axis
  | axisStart
  | axisEnd

def complain {α : Type} (parts : List Part) (problem : String → SyntaxProblem) : TypesM α := do
  let shown ← (Part.list parts).text (← get).graph
  throw (.malformed (guessFirst parts) (problem shown))

def misfit {α : Type} (m : Misuse) : TypesM α := throw (.misuse m)

def chain (left : Part) : List Part → TypesM Part
  | [] => return left
  | .token op :: right :: rest => do
    let sub ← binary left op.text right
    chain sub rest
  | _ :: _ :: _ => misfit .wrongPart
  | [p] => complain [left, p] .badBinary

def binaryRule (parts : List Part) : TypesM Part :=
  match parts with
  | [p] => return p
  | left :: op :: right :: rest => chain left (op :: right :: rest)
  | parts => complain parts .badBinary

def fieldName (p : Part) : TypesM String := do
  match p with
  | .plain .absent => misfit .wrongPart
  | p => p.text (← get).graph

def asVariable (p : Part) : TypesM Variable :=
  match asVariable? p with
  | some v => return v
  | none => misfit .missingPart

def linkAll : List Part → TypesM Unit
  | [] | [_] => pure ()
  | p :: rest => do
    linkLast [p]
    linkAll rest

def countRule (up : Part) (parts : List Part) : TypesM Part :=
  match parts with
  | [place, start, stop, block] => do
    let place ← match place with
      | .token word => pure (.expr (.access word []))
      | p => match asVariable? p with
        | some _ => pure p
        | none => misfit .wrongPart
    count place start stop up block
  | _ => misfit .partCount

def declaredName : Part → TypesM String
  | .expr (.access name _) => return name.text
  | .assign place _ => return place.name.text
  | .call name _ => return name.text
  | .declaration place _ => return place.name.text
  | .typeDeclaration name _ => return name.text
  | _ => misfit .missingPart

def declareVariable (place type : Part) : TypesM Part := do
  let name ← declaredName place
  if Reading.reserved.contains name then throw (.typing (.reservedVariable name))
  match type with
  | .deferred side missing =>
    let t ← Types.lookUpIn side missing
    declaration place (.type t)
  | .type t =>
    if (← get).graph.hasDeferrals t then Types.settle t
    declaration place (.type t)
  | .basicClass t => declaration place (.basicClass t)
  | _ => misfit .missingPart

def declareType (limits : Limits) (name type : Part) : TypesM Part := do
  match textOf? name with
  | some n => if Reading.reserved.contains n then throw (.typing (.reservedType n))
  | none => pure ()
  register limits (← name.text (← get).graph) type
  match name, type with
  | .token word, .type t => return .typeDeclaration word t
  | _, _ => misfit .invalidField

def typeRule (p : Part) : TypesM Part := do
  match p with
  | .token word =>
    match (← get).target word.text with
    | .settled t => return .type t
    | .deferred side name => return .deferred side name
  | .type t => return .type t
  | p => throw (.malformed p.guessLine (.badType (← p.text (← get).graph)))

def enumRule (parts : List Part) : TypesM Part := do
  let g := (← get).graph
  let names ← parts.mapM fun
    | .token word => pure (Part.plain (.text word.text))
    | p => do throw (.malformed p.guessLine (.badConstantName (← p.text g) (p.kindPath g)))
  enumOf names

def tupleRule (parts : List Part) : TypesM Part := do
  let g := (← get).graph
  let fields ← parts.mapM fun
    | .group (name :: type :: _) => pure (name, type)
    | .group _ => misfit .noSuchPart
    | p => do throw (.malformed p.guessLine (.badTupleField (← p.text g) (p.kindPath g)))
  tupleOf fields

def environmentRule (setting : Setting) (name type : Lexeme) (parts : List Part) : TypesM Part := do
  match setting.environment.lookup name.text with
  | none => throw (.malformed (guessFirst parts) (.unsetEnvironment name.text))
  | some text =>
    if !(["int", "real", "char", "bool"].contains type.text) then misfit .noSuchKey
    return .expr (← Reading.environmentLiteral type.text ⟨text, name.line⟩)

def booleanRule (p : Part) : TypesM Part :=
  match p with
  | .token word =>
    if word.text == "true" || word.text == "false" then return .expr (.literal .boolean word)
    else throw (.malformed word.line (.badLiteral "BoolType" word.text))
  | _ => misfit .wrongPart

/-- A list is no constant, but that shows only where constants are known. -/
def constantRule (parts : List Part) : TypesM Part := do
  let s ← get
  let known := s.registry.types.any fun
    | (_, .settled t) => match s.graph.node t with
      | .enum .. => true
      | _ => false
    | _ => false
  if known then misfit .missingPart else complain parts .unknownConstant

def arrayRule (parts : List Part) : TypesM Part := do
  match parts with
  | [axes, of] =>
    let p ← arrayOf of axes
    match p with
    | .type t => settleAxes (fun types => ⟨types, none, true⟩) t
    | _ => pure ()
    return p
  | parts => complain parts .badArrayType

def exactly (n : Nat) (parts : List Part) : TypesM Unit :=
  if parts.length == n then pure () else misfit .wrongPart

def Rule.apply (setting : Setting) (rule : Rule) (parts : List Part) : TypesM Part :=
  match rule, parts with
  | program, [.expr (.unary ..), _, _] | program, [.expr (.binary ..), _, _] => misfit .operands
  | program, [_, _, _] => misfit .missingPart
  | program, _ => misfit .partCount
  | body, [_, _] => misfit .missingPart
  | body, _ => misfit .partCount
  | sentences, parts => do
    linkAll parts
    return .list parts
  | branch, [guard, yes] => Assembly.branch guard yes (.list [])
  | branch, [guard, yes, no] => Assembly.branch guard yes no
  | branch, _ => misfit .partCount
  | loop, [guard, block] => Assembly.loop guard block
  | loop, _ => misfit .partCount
  | countUp, parts => return .group [.plain (.bool true), .list parts]
  | countDown, parts => return .group [.plain (.bool false), .list parts]
  | count, [p] => do
    match ← itemsOf p with
    | [up, inner] => countRule up (← itemsOf inner)
    | _ => misfit .partCount
  | count, _ => misfit .wrongPart
  | variableDeclaration, [target, type] => declareVariable target type
  | variableDeclaration, _ => misfit .partCount
  | typeDeclaration, [name, type] => declareType setting.limits name type
  | typeDeclaration, _ => misfit .wrongPart
  | pointer, [p] => pointerOf p
  | pointer, _ => misfit .wrongPart
  | typeName, [p] => typeRule p
  | typeName, _ => misfit .wrongPart
  | synonym, [.deferred side name] => do synonymOf (.type (← Types.lookUpIn side name))
  | synonym, [p] => synonymOf p
  | synonym, _ => misfit .wrongPart
  | enumeration, [] => misfit .wrongPart
  | enumeration, parts => enumRule parts
  | tuple, [] => misfit .wrongPart
  | tuple, parts => tupleRule parts
  | field, [name, type] => return .group [name, type]
  | field, _ => misfit .wrongPart
  | only, [p] => return p
  | only, _ => misfit .wrongPart
  | first, p :: _ => return p
  | first, [] => misfit .noSuchPart
  | call, name :: arguments => do
    let word ← match name with
      | .token word => pure word
      | p => pure ⟨← p.text (← get).graph, 1⟩
    return .call word arguments
  | call, [] => misfit .partCount
  | assignment, [target, value] => do assign (← get).graph target value
  | assignment, _ => misfit .partCount
  | binary, parts => binaryRule parts
  | unary, [p] => return p
  | unary, [.token op, operand] => Assembly.unary op.text operand
  | unary, [_, _] => misfit .wrongPart
  | unary, parts => return .list parts
  | expression, [p] => return p
  | expression, parts => complain parts .badExpression
  | environment, .token name :: .token type :: rest =>
    environmentRule setting name type (.token name :: .token type :: rest)
  | environment, .token _ :: _ :: _ => misfit .missingPart
  | environment, [] | environment, [.token _] => misfit .noSuchPart
  | environment, _ => misfit .missingPart
  | place, [.expr (.access name path)] => return .expr (.access name path)
  | place, .token word :: _ => return .expr (.access word [])
  | place, [] => misfit .noSuchPart
  | place, _ => misfit .wrongPart
  | member, [p, name] => do
    let v ← asVariable p
    return .expr (v.push (.field (← fieldName name))).toExpr
  | member, parts => complain parts .badFieldAccess
  | deref, p :: _ => do return .expr ((← asVariable p).push .deref).toExpr
  | deref, [] => misfit .noSuchPart
  | arrow, [p, name] => do
    let v ← asVariable p
    return .expr ((v.push .deref).push (.field (← fieldName name))).toExpr
  | arrow, parts => complain parts .badArrowAccess
  | index, [] => misfit .noSuchPart
  | index, [p] => complain [p] .badIndexing
  | index, p :: items => do
    let v ← asVariable p
    let indexes : List Expr ← liftM (items.mapM (asIndex (← get).graph))
    return .expr (v.push (.index indexes)).toExpr
  | boolean, p :: _ => booleanRule p
  | boolean, [] => misfit .noSuchPart
  | constant, parts => constantRule parts
  | single, _ => misfit .wrongPart
  | skip, _ => misfit .invalidField
  | array, parts => arrayRule parts
  | axes, parts => return .group parts
  | axis, [high] => axisOf (.plain (.int 0)) high
  | axis, [low, high] => axisOf low high
  | axis, parts => complain parts .badAxis
  | axisStart, [p] => return p
  | axisStart, parts => complain parts .badAxisStart
  | axisEnd, [p] => return p
  | axisEnd, parts => complain parts .badAxisEnd

end Chalkboard.Assembly
