import Chalkboard.Syntax.Expr

/-! Sentences: what a program does, one after another. -/

namespace Chalkboard.Syntax

inductive Builtin where
  | alloc
  | free
  deriving DecidableEq, Repr

def Builtin.text : Builtin → String
  | alloc => "alloc"
  | free => "free"

inductive Sentence where
  | skip (line : Nat)
  | assign (place : Variable) (value : Expr)
  | call (builtin : Builtin) (line : Nat) (place : Variable)
  | branch (guard : Expr) (yes no : List Sentence)
  | loop (guard : Expr) (body : List Sentence)
  | count (place : Variable) (start stop : Expr) (up : Bool) (body : List Sentence)

instance : Inhabited Sentence := ⟨.skip 1⟩

namespace Sentence

def line : Sentence → Nat
  | skip line => line
  | assign place _ => place.line
  | call _ line _ => line
  | branch guard .. => guard.line
  | loop guard _ => guard.line
  | count place .. => place.line

def display : Sentence → String
  | skip _ => "Skip()"
  | assign place value => s!"Assignment(dest={place.text}, expr={value.text})"
  | call builtin _ place =>
    s!"BuiltinCall(name={builtin.text}, args={Text.bracketed [place.toExpr.display]})"
  | branch guard .. => s!"If(guard={guard.text})"
  | loop guard _ => s!"While(guard={guard.text})"
  | count place start stop up _ =>
    let direction := if up then "to" else "downto"
    s!"For(variable={place.text}, {start.text} {direction} {stop.text})"

end Sentence

mutual

/-- How many branchings end in one another. What comes next is told to the last sentences of both blocks, by
a call inside another. -/
def Sentence.tails : Sentence → Nat
  | .branch _ yes no => max (blockTails yes) (blockTails no) + 1
  | _ => 0

def blockTails : List Sentence → Nat
  | [] => 0
  | s :: rest => if rest.isEmpty then s.tails else blockTails rest

end

end Chalkboard.Syntax
