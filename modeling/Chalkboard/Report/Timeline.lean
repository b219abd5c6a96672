import Chalkboard.Display.Table
import Chalkboard.Report.Types
import Chalkboard.Timeline.Basic

/-! Reports of frames and of tables. -/

namespace Chalkboard

variable [Reported Fault]

def Timeline.Frame.told (g : Types.Graph) (p : Syntax.Program) (marked : List Nat) (f : Frame)
    (next : Option Frame) : Except Fault Report := do
  let done := match f.done.bind (p.items.toArray[·]?) with
    | some item => item.action.display g
    | none => .ok "loaded"
  let keyed (key : Memory.Root) : Except Fault Report := do
    let value ← (f.cell? key).mapM fun c => do (← c.value g).told
    return report (key.label, value)
  return .fields [("line", report f.line), ("done", report done),
    ("exprs", report (← f.noted.mapM fun (e, v) => e.toldWith v)),
    ("new", report (← f.diff.new.mapM keyed)), ("changed", report (← f.diff.changed.mapM keyed)),
    ("deleted", report (f.diff.deleted.map (·.label))),
    ("checkpoint", report (f.done.any marked.contains)), ("next", report (next.map (·.line)))]

def Timeline.told (g : Types.Graph) (p : Syntax.Program) (marked : List Nat) (frames : Timeline) :
    Except Fault (List Report) :=
  frames.toList.zipIdx.mapM fun (f, i) => f.told g p marked frames[i + 1]?

instance : Reported Display.Table :=
  ⟨fun t => .fields [("fields", report Display.columns), ("align", report Display.alignments),
    ("rows", report t.rows), ("dividers", report t.dividers)]⟩

end Chalkboard
