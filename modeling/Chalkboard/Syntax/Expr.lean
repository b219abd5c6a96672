import Chalkboard.Text.Quoted

/-! Expressions, and variables with their paths into memory. Every node keeps the text it was written
with, so its display needs nothing else. -/

namespace Chalkboard.Syntax

/-- A piece of source text and the line it stands on. -/
structure Lexeme where
  text : String
  line : Nat := 1
  deriving DecidableEq, Repr

inductive LiteralKind where
  | boolean
  | integer
  | real
  | char
  | null
  | enum
  deriving DecidableEq, Repr

def LiteralKind.label : LiteralKind → String
  | boolean => "BooleanLiteral"
  | integer => "IntegerLiteral"
  | real => "RealLiteral"
  | char => "CharLiteral"
  | null => "NullLiteral"
  | enum => "EnumLiteral"

/-- A unary operator; a text that names none is kept as written. -/
inductive UnaryOp where
  | negative
  | positive
  | not
  | other (text : String)
  deriving DecidableEq, Repr

def UnaryOp.text : UnaryOp → String
  | negative => "-"
  | positive => "+"
  | not => "!"
  | other text => text

def UnaryOp.ofText : String → UnaryOp
  | "-" => negative
  | "+" => positive
  | "!" => not
  | text => other text

/-- A binary operator; a text that names none is kept as written. -/
inductive BinaryOp where
  | times
  | sum
  | minus
  | divide
  | remainder
  | or
  | and
  | equal
  | notEqual
  | less
  | lessEqual
  | more
  | moreEqual
  | other (text : String)
  deriving DecidableEq, Repr

def BinaryOp.text : BinaryOp → String
  | times => "*"
  | sum => "+"
  | minus => "-"
  | divide => "/"
  | remainder => "%"
  | or => "||"
  | and => "&&"
  | equal => "=="
  | notEqual => "!="
  | less => "<"
  | lessEqual => "<="
  | more => ">"
  | moreEqual => ">="
  | other text => text

def BinaryOp.ofText : String → BinaryOp
  | "*" => times
  | "+" => sum
  | "-" => minus
  | "/" => divide
  | "%" => remainder
  | "||" => or
  | "&&" => and
  | "==" => equal
  | "!=" => notEqual
  | "<" => less
  | "<=" => lessEqual
  | ">" => more
  | ">=" => moreEqual
  | text => other text

/-- The operators that look at their right side only when the left does not settle the result. -/
def BinaryOp.isJunction : BinaryOp → Bool
  | or | and => true
  | _ => false

mutual

inductive Expr where
  | literal (kind : LiteralKind) (word : Lexeme)
  | access (name : Lexeme) (path : List Step)
  | unary (op : UnaryOp) (operand : Expr)
  | binary (left : Expr) (op : BinaryOp) (right : Expr)
  /-- An expression that is passed on unevaluated. -/
  | lazy (body : Expr)
  /-- Something that is no expression in the place of one: how it is shown in a list, its text, and
  what it is. -/
  | stray (shown text kind : String)

inductive Step where
  | deref
  | index (indexes : List Expr)
  | field (name : String)

end

instance : Inhabited Expr := ⟨.literal .null ⟨"null", 1⟩⟩

/-- A name and the steps taken from its cell, in order. -/
structure Variable where
  name : Lexeme
  path : List Step := []

def Variable.toExpr (v : Variable) : Expr := .access v.name v.path

def Variable.line (v : Variable) : Nat := v.name.line

def Variable.push (v : Variable) (s : Step) : Variable := { v with path := v.path ++ [s] }

def Expr.line : Expr → Nat
  | literal _ word => word.line
  | access name _ => name.line
  | unary _ operand => operand.line
  | binary left _ _ => left.line
  | lazy body => body.line
  | stray .. => 1

def Expr.isAccess : Expr → Bool
  | access .. => true
  | _ => false

/-- A variable that stands as an item of a list is named as one. -/
def Expr.asItem (e : Expr) (text : String) : String :=
  if e.isAccess then s!"Variable({text})" else text

mutual

def Expr.text : Expr → String
  | .literal kind word => s!"{kind.label}({word.text})"
  | .access name path => pathText name.text true path
  | .unary op operand => s!"UnaryOp({op.text}, {operand.text})"
  | .binary left op right => s!"BinaryOp({left.text}, {op.text}, {right.text})"
  | .lazy body => s!"LazyExpr({body.text})"
  | .stray shown .. => shown

/-- A name with its steps written around it. Only the first dereference goes without brackets. -/
def pathText (name : String) (first : Bool) : List Step → String
  | [] => name
  | .deref :: steps => pathText (if first then "*" ++ name else "*(" ++ name ++ ")") false steps
  | .index indexes :: steps =>
    pathText (name ++ "[" ++ Text.bracketed (itemTexts indexes) ++ "]") false steps
  | .field f :: steps => pathText (name ++ "." ++ f) false steps

def itemTexts : List Expr → List String
  | [] => []
  | e :: es => e.asItem e.text :: itemTexts es

end

def Expr.display (e : Expr) : String := e.asItem e.text

def Variable.text (v : Variable) : String := v.toExpr.text

end Chalkboard.Syntax
