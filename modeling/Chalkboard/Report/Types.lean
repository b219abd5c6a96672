import Chalkboard.Report.Value
import Chalkboard.Types.Table

/-! Reports of the table of types. How a fault is told is left open. -/

namespace Chalkboard

variable [Reported Fault]

/-- What was attempted: a result, or the fault in its place. -/
instance {α : Type} [Reported α] : Reported (Except Fault α) := ⟨fun
  | .ok a => report a
  | .error f => report f⟩

def reportSize (v : Except Fault Value) : Report := report (v.bind Value.toldSize)

/-- Constants and fields are told only of types that have them. -/
def Types.Row.report (r : Row) : Report :=
  let constants := r.constants.elim [] fun cs => [("constants", Reported.report cs)]
  let fields := r.fields.elim [] fun fs => [("fields", Reported.report fs)]
  .fields ([("name", Reported.report r.name), ("type", Reported.report r.text),
    ("size", reportSize r.size)] ++ constants ++ fields)

def Types.report (ts : Types) : Report := Reported.report (ts.rows.map (·.report))

end Chalkboard
