import Chalkboard.Syntax.Program

/-! Parts: anything that can be put together to a tree by hand. Where the reader only ever builds sound
trees, here a block may hold any part, and a part may be a plain value that fits nowhere. -/

namespace Chalkboard.Assembly

open Syntax (Lexeme Expr Variable LiteralKind)
open Chalkboard.Types (TypeId Graph Axis)

inductive Part where
  | plain (v : Value)
  | token (word : Lexeme)
  | expr (e : Expr)
  | skip (line : Nat)
  | assign (place : Variable) (value : Expr)
  | call (name : Lexeme) (arguments : List Part)
  | branch (guard : Expr) (yes no : List Part)
  | loop (guard : Expr) (body : List Part)
  | count (place : Variable) (start stop : Expr) (up : Bool) (body : List Part)
  | declaration (place : Variable) (type : TypeId)
  | typeDeclaration (name : Lexeme) (type : TypeId)
  | type (t : TypeId)
  /-- A basic type that was asked for by name but not made. -/
  | basicClass (t : TypeId)
  | deferred (home : Types.Side) (name : String)
  | axis (a : Axis)
  | list (items : List Part)
  /-- Items that belong together, in a fixed number. -/
  | group (items : List Part)

instance : Inhabited Part := ⟨.plain .absent⟩

def quotedToken (word : Lexeme) : String := s!"Token('T', {Text.quoted word.text})"

def groupText (texts : List String) : String :=
  match texts with
  | [t] => "(" ++ t ++ ",)"
  | ts => "(" ++ ", ".intercalate ts ++ ")"

mutual

def Part.display (g : Graph) : Part → Except Fault String
  | .plain v => liftMisuse v.display
  | .token word => .ok (quotedToken word)
  | .expr e => .ok e.display
  | .skip _ => .ok "Skip()"
  | .assign place value => .ok s!"Assignment(dest={place.text}, expr={value.text})"
  | .call name arguments => do
    let items ← displayAll g arguments
    return s!"BuiltinCall(name={name.text}, args={Text.bracketed items})"
  | .branch guard .. => .ok s!"If(guard={guard.text})"
  | .loop guard _ => .ok s!"While(guard={guard.text})"
  | .count place start stop up _ =>
    let direction := if up then "to" else "downto"
    .ok s!"For(variable={place.text}, {start.text} {direction} {stop.text})"
  | .declaration place t => do
    let type ← g.text t
    return s!"VarDeclaration(name={place.name.text}, type={type})"
  | .typeDeclaration name t => do
    let type ← g.text t
    return s!"TypeDeclaration(name={name.text}, type={type})"
  | .type t => g.text t
  | .basicClass t => .ok (g.node t).kind
  | .deferred _ name => .ok (Types.deferredText name)
  | .axis a => liftMisuse a.display
  | .list items => do return Text.bracketed (← displayAll g items)
  | .group items => do return groupText (← displayAll g items)

def displayAll (g : Graph) : List Part → Except Fault (List String)
  | [] => .ok []
  | p :: ps => do return (← p.display g) :: (← displayAll g ps)

end

def Part.text (g : Graph) : Part → Except Fault String
  | .plain v => liftMisuse v.plain
  | .token word => .ok word.text
  | .expr e => .ok e.text
  | p => p.display g

def Part.line? : Part → Option Nat
  | .expr e => some e.line
  | .skip line => some line
  | .assign place _ => some place.line
  | .call name _ => some name.line
  | .branch guard .. => some guard.line
  | .loop guard _ => some guard.line
  | .count place .. => some place.line
  | .declaration place _ => some place.line
  | .typeDeclaration name _ => some name.line
  | _ => none

mutual

/-- The line a complaint about a part names: that of the part, or of the first of its items that has
one. -/
def Part.guessLine : Part → Option Nat
  | .token word => some word.line
  | .list items => guessFirst items
  | .group items => guessFirst items
  | p => p.line?

def guessFirst : List Part → Option Nat
  | [] => none
  | p :: ps => p.guessLine <|> guessFirst ps

end

def exprName : Expr → String
  | .literal kind _ => kind.label
  | .access .. => "Variable"
  | .unary .. => "UnaryOp"
  | .binary .. => "BinaryOp"
  | .lazy _ => "LazyExpr"
  | .stray _ _ kind => kind

def Part.kindPath (g : Graph) : Part → String
  | .plain v => v.kind
  | .token _ => "<class 'lark.lexer.Token'>"
  | .expr e =>
    let place := match e with
      | .unary .. | .binary .. => "operators"
      | _ => "expressions"
    let name := exprName e
    s!"<class 'tomos.ayed2.ast.{place}.{name}'>"
  | .skip _ => "<class 'tomos.ayed2.ast.sentences.Skip'>"
  | .assign .. => "<class 'tomos.ayed2.ast.sentences.Assignment'>"
  | .call .. => "<class 'tomos.ayed2.ast.sentences.BuiltinCall'>"
  | .branch .. => "<class 'tomos.ayed2.ast.sentences.If'>"
  | .loop .. => "<class 'tomos.ayed2.ast.sentences.While'>"
  | .count .. => "<class 'tomos.ayed2.ast.sentences.For'>"
  | .declaration .. => "<class 'tomos.ayed2.ast.program.VarDeclaration'>"
  | .typeDeclaration .. => "<class 'tomos.ayed2.ast.program.TypeDeclaration'>"
  | .type t => (g.node t).kind
  | .basicClass _ => "<class 'type'>"
  | .deferred .. => Types.deferredKind
  | .axis _ => "<class 'tomos.ayed2.ast.types.array.ArrayAxis'>"
  | .list _ => "<class 'list'>"
  | .group _ => "<class 'tuple'>"

def lastName (path : String) : String :=
  let name := (path.toList.dropWhile (· != '\'')).drop 1 |>.takeWhile (· != '\'')
  String.ofList (name.reverse.takeWhile (· != '.')).reverse

def Part.kindName (g : Graph) (p : Part) : String := lastName (p.kindPath g)

end Chalkboard.Assembly
