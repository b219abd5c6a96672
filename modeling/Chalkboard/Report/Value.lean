import Chalkboard.Report.Basic
import Chalkboard.Value.Format

/-! Reports of values and numbers. -/

namespace Chalkboard

/-- A number by its digits; what is infinite or undefined is told by name. -/
def Numeric.report : Numeric → Report
  | .whole i => .number (toString i)
  | .real x =>
    if x.isNaN then .number "NaN"
    else if x.isInf then .number (if x < 0 then "-Infinity" else "Infinity")
    else .number (Number.realText x)

instance : Reported Numeric := ⟨Numeric.report⟩

namespace Value

mutual

/-- A value with its kind, where the kind does not show by itself. It fails where the value has no
text. -/
def told : Value → Except Fault Report
  | unknown => .ok (.fields [("unknown", .bool true)])
  | null => .ok (.fields [("null", .bool true)])
  | bool b => .ok (.bool b)
  | int i => (Number.wholeText? i).elim (.error (.misuse .numeral)) fun _ => .ok (.whole i)
  | real x => .ok (.fields [("float", .text (Number.realText x))])
  | text s => .ok (.text s)
  | address a => .ok (.fields [("addr", .text a.text)])
  | constant c => .ok (.fields [("enum", .text c.text), ("value", Reported.report c.number)])
  | lazy e => .ok (.fields [("repr", .text e.display)])
  | absent => .ok .null
  | list items => (toldItems items).map .list
  | record fields => (toldFields fields).map fun rs => .fields [("tuple", .list rs)]

def toldItems : List Value → Except Fault (List Report)
  | [] => .ok []
  | v :: vs => return (← v.told) :: (← toldItems vs)

def toldFields : List (String × Value) → Except Fault (List Report)
  | [] => .ok []
  | (name, v) :: rest => return .list [.text name, ← v.told] :: (← toldFields rest)

end

/-- A value that stands for a size or a length: numbers are told by their digits. -/
def toldSize : Value → Except Fault Report
  | .int i => .ok (Numeric.report (.whole i))
  | .real x => .ok (Numeric.report (.real x))
  | v => v.told

end Value

mutual

/-- A value as it was given in a setting: nothing is added to tell its kind. -/
def Value.plainReport : Value → Report
  | .bool b => .bool b
  | .int i => Numeric.report (.whole i)
  | .real x => Numeric.report (.real x)
  | .text s => .text s
  | .list items => .list (plainReports items)
  | .record fields => .fields (plainFields fields)
  | _ => .null

def plainReports : List Value → List Report
  | [] => []
  | v :: vs => v.plainReport :: plainReports vs

def plainFields : List (String × Value) → List (String × Report)
  | [] => []
  | (name, v) :: rest => (name, v.plainReport) :: plainFields rest

end

def Syntax.Expr.toldWith (e : Expr) (v : Value) : Except Fault Report :=
  return .list [.text e.display, ← v.told]

end Chalkboard
