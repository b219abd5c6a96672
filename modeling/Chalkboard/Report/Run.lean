import Chalkboard.Report.Types
import Chalkboard.Run.Machine
import Chalkboard.Syntax.Lister

/-! Reports of programs, of memory and of runs. -/

namespace Chalkboard

variable [Reported Fault]

def Syntax.Program.reportItems (g : Types.Graph) (p : Program) : Except Fault (List Report) := do
  let _ ← p.listed
  let rows ← p.items.mapM fun i => do return (i, ← i.action.display g)
  let shown := (rows.map fun (i, t) => (i.action.line, t)).toArray
  return rows.map fun (i, t) =>
    .list [report i.action.line, report t, report (i.next.bind (shown[·]?))]

def Memory.Cell.report (g : Types.Graph) (name : String) (c : Cell) : Report :=
  .fields [("name", Reported.report name), ("type", Reported.report (g.text c.type)),
    ("size", reportSize (g.size c.type)), ("addr", Reported.report (c.address.map (·.text))),
    ("cells", Reported.report c.count), ("value", Reported.report ((c.value g).bind Value.told))]

def Memory.report (g : Types.Graph) (m : Memory) : Report :=
  .fields [("stack", Reported.report (m.stack.map fun (n, c) => c.report g n)),
    ("heap", Reported.report (m.heap.map fun (a, c) => c.report g a.text)),
    ("next", Reported.report [m.nextStack, m.nextHeap])]

namespace Run.Outcome

variable {σ : Type}

def reportEnd (g : Types.Graph) (p : Syntax.Program) (told : Fault → List (String × Report))
    (o : Outcome σ) : List (String × Report) :=
  let steps := ("steps", report o.course.steps)
  match o.fault with
  | none => [steps]
  | some f =>
    let action := (o.course.current.bind fun i => p.items.toArray[i]?).map (·.action)
    let entry (a : Syntax.Action) : Except Fault (Nat × String) := return (a.line, ← a.display g)
    told f ++ [steps, ("at", report (action.map entry))]

def reportMemory (g : Types.Graph) (o : Outcome σ) : List (String × Report) :=
  if o.fault.isSome && o.course.current.isNone then []
  else [("state", o.course.situation.memory.report g)]

end Run.Outcome

end Chalkboard
