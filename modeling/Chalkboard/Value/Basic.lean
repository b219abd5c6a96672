import Chalkboard.Memory.Address
import Chalkboard.Syntax.Expr

/-! Values: what cells hold and expressions evaluate to, together with the values of whole arrays and
tuples. -/

namespace Chalkboard

/-- A constant of an enumeration: the enumeration's place among the types, the name the enumeration
goes by, and the constant's own name and number. -/
structure Constant where
  owner : Nat
  enumeration : Option String
  name : String
  number : Nat
  deriving DecidableEq, Repr

/-- Two constants are the same when they are the same constant of the same enumeration. -/
def Constant.same (a b : Constant) : Bool := a.owner == b.owner && a.name == b.name

def Constant.text (c : Constant) : String :=
  c.name ++ "(Enum:" ++ c.enumeration.getD "None" ++ ")"

inductive Value where
  /-- What a cell holds before the first assignment. -/
  | unknown
  | null
  | bool (b : Bool)
  | int (i : Int)
  | real (x : Float)
  /-- A character, or a text made of characters. -/
  | text (s : String)
  | address (a : Memory.Address)
  | constant (c : Constant)
  | lazy (e : Syntax.Expr)
  /-- No value at all. -/
  | absent
  | list (items : List Value)
  | record (fields : List (String × Value))

instance : Inhabited Value := ⟨.unknown⟩

namespace Value

mutual

/-- The text of a value as an item of a list or record. A whole number that is too long has none. -/
def display : Value → Except Misuse String
  | unknown => .ok "<?>"
  | null => .ok "null"
  | bool b => .ok (if b then "True" else "False")
  | int i => (Number.wholeText? i).elim (.error .numeral) .ok
  | real x => .ok (Number.realText x)
  | text s => .ok (Text.quoted s)
  | address a => a.display
  | constant c => .ok c.text
  | lazy e => .ok e.display
  | absent => .ok "None"
  | list items => (displayItems items).map Text.bracketed
  | record fields => (displayFields fields).map Text.braced

def displayItems : List Value → Except Misuse (List String)
  | [] => .ok []
  | v :: vs => return (← v.display) :: (← displayItems vs)

def displayFields : List (String × Value) → Except Misuse (List String)
  | [] => .ok []
  | (name, v) :: fields =>
    return (Text.quoted name ++ ": " ++ (← v.display)) :: (← displayFields fields)

end

/-- The text of a value by itself: texts and addresses are not dressed up. -/
def plain : Value → Except Misuse String
  | text s => .ok s
  | address a => .ok a.text
  | v => v.display

def kind : Value → String
  | unknown => "<class 'tomos.ayed2.evaluation.unknown_value._UnknownSingleton'>"
  | null => "<class 'tomos.ayed2.ast.types.basic.NullValue'>"
  | bool _ => "<class 'bool'>"
  | int _ => "<class 'int'>"
  | real _ => "<class 'float'>"
  | text _ => "<class 'str'>"
  | address _ => "<class 'tomos.ayed2.evaluation.memory.MemoryAddress'>"
  | constant _ => "<class 'tomos.ayed2.ast.types.enum.EnumConstant'>"
  | lazy _ => "<class 'tomos.ayed2.ast.expressions.LazyExpr'>"
  | absent => "<class 'NoneType'>"
  | list _ => "<class 'list'>"
  | record _ => "<class 'dict'>"

end Value

end Chalkboard
