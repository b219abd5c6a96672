import Chalkboard.Types.Build

/-! The table of registered types, as it is shown. -/

namespace Chalkboard.Types

structure Row where
  name : String
  text : Except Fault String
  size : Except Fault Value
  constants : Option (List (String × Nat)) := none
  fields : Option (List (String × Except Fault String)) := none

def row (s : Types) (name : String) : Entry → Row
  | .deferred _ target => ⟨name, .ok (deferredText target), .error (.misuse .missingPart), none, none⟩
  | .settled t =>
    let row : Row := ⟨name, s.graph.text t, s.graph.size t, none, none⟩
    match s.graph.node t with
    | .enum _ constants => { row with constants := some constants }
    | .tuple _ fields _ => { row with fields := some (fields.map fun (f, u) => (f, s.graph.text u)) }
    | _ => row

def rows (s : Types) : List Row :=
  (s.registry.types.filter fun (name, _) => !Registry.isBasic name).map fun (name, e) => s.row name e

end Chalkboard.Types
