import Chalkboard.Types.Deferral
import Chalkboard.Types.Size

/-! Making user-defined types from their parts. -/

namespace Chalkboard.Types

/-- Names and numbers of constants, counted from one. A name given twice keeps its first place and
takes its last number. -/
def numbered (names : List String) : List (String × Nat) :=
  (names.zipIdx 1).foldl (fun constants (name, n) => upsert name n constants) []

def addEnum (names : List String) : TypesM TypeId := add (.enum none (numbered names))

/-- The sum of the sizes of the fields, in order; each must be a type. -/
def tupleSize (total : Value) : List (String × Target) → TypesM (List (String × TypeId) × Value)
  | [] => return ([], total)
  | (_, .deferred ..) :: _ => throw (.typing (.fieldTypeNotType deferredKind))
  | (name, .settled t) :: rest => do
    let size ← (← get).graph.size t
    let total ← liftMisuse (total.add size)
    let (fields, total) ← tupleSize total rest
    return ((name, t) :: fields, total)

/-- A field given twice keeps its first place and takes its last type. -/
def addTuple (fields : List (String × Target)) : TypesM TypeId := do
  let fields := fields.foldl (fun known (name, t) => upsert name t known) []
  if fields.isEmpty then throw (.typing .noFields)
  let (fields, size) ← tupleSize (.int 0) fields
  add (.tuple none fields size)

def addSynonym (of : Target) : TypesM TypeId := do
  match of with
  | .settled t => add (.synonym none t)
  | .deferred side name => add (.synonym none (← lookUpIn side name))

end Chalkboard.Types
