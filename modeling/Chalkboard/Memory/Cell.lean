import Chalkboard.Types.Size

/-! Cells: a leaf holds a value, an array or a tuple holds cells. Every leaf has an address. -/

namespace Chalkboard.Memory

open Chalkboard.Types (TypeId Graph Node Axis)

inductive Cell where
  | leaf (address : Address) (type : TypeId) (value : Value)
  | array (type : TypeId) (parts : List Cell)
  | tuple (type : TypeId) (parts : List (String × Cell))

instance : Inhabited Cell := ⟨.array 0 []⟩

namespace Cell

def type : Cell → TypeId
  | leaf _ t _ => t
  | array t _ => t
  | tuple t _ => t

mutual

def count : Cell → Nat
  | leaf .. => 1
  | array _ parts => countParts parts
  | tuple _ parts => countFields parts

def countParts : List Cell → Nat
  | [] => 0
  | c :: cs => c.count + countParts cs

def countFields : List (String × Cell) → Nat
  | [] => 0
  | (_, c) :: cs => c.count + countFields cs

end

mutual

/-- The address of an array is that of its first element, the address of a tuple the smallest among
its fields. -/
def address : Cell → Except Fault Address
  | leaf a _ _ => .ok a
  | array _ [] => .error (.misuse .emptyArray)
  | array _ (c :: _) => c.address
  | tuple _ [] => .error (.misuse .format)
  | tuple _ ((_, c) :: cs) => do leastAddress (← c.address) cs

def leastAddress (least : Address) : List (String × Cell) → Except Fault Address
  | [] => .ok least
  | (_, c) :: cs => do
    let a ← c.address
    leastAddress (if a.before least then a else least) cs

end

def pieces (size : Nat) (items : List Value) : List (List Value) :=
  (List.range (items.length / size)).map fun i => (items.drop (i * size)).take size

def nest : List Nat → List Value → Except Fault Value
  | [], _ => .error (.misuse .noAxes)
  | [_], items => .ok (.list items)
  | _ :: n :: rest, items => do
    let size := (n :: rest).foldl (· * ·) 1
    if size == 0 then throw (.misuse .divisionByZero)
    return .list (← (pieces size items).mapM (nest (n :: rest)))

def countOf : Value → Except Fault Nat
  | .int n => .ok n.toNat
  | _ => .error (.misuse .notCount)

def lengths (g : Graph) (t : TypeId) : Except Fault (List Nat) :=
  match g.node t with
  | .array _ axes => do (← Types.shape axes).mapM countOf
  | _ => .error (.misuse .notArray)

mutual

def value (g : Graph) : Cell → Except Fault Value
  | leaf _ _ v => .ok v
  | array t parts => do
    let values ← partValues g parts
    nest (← lengths g t) values
  | tuple _ parts => return .record (← fieldValues g parts)

def partValues (g : Graph) : List Cell → Except Fault (List Value)
  | [] => .ok []
  | c :: cs => return (← c.value g) :: (← partValues g cs)

def fieldValues (g : Graph) : List (String × Cell) → Except Fault (List (String × Value))
  | [] => .ok []
  | (name, c) :: cs => return (name, ← c.value g) :: (← fieldValues g cs)

end

mutual

def display (g : Graph) : Cell → Except Fault String
  | leaf a t v => do
    let type ← g.text t
    return s!"MemoryCell({a.text}, {type}, value={← liftMisuse v.plain})"
  | array t parts => do
    let type ← g.text t
    return s!"ArrayCellCluster({type}, {Text.bracketed (← displayParts g parts)})"
  | tuple t parts => do
    let type ← g.text t
    let value := Value.record (← fieldValues g parts)
    return s!"TupleCellCluster({type}, value={← liftMisuse value.display})"

def displayParts (g : Graph) : List Cell → Except Fault (List String)
  | [] => .ok []
  | c :: cs => return (← c.display g) :: (← displayParts g cs)

end

def part? : Cell → Nat → Option Cell
  | leaf .., _ => none
  | array _ parts, i => parts[i]?
  | tuple _ parts, i => parts[i]?.map (·.2)

def write (v : Value) : List Nat → Cell → Cell
  | [], leaf a t _ => leaf a t v
  | [], c => c
  | i :: path, array t parts => array t (parts.modify i (write v path))
  | i :: path, tuple t parts => tuple t (parts.modify i fun (name, c) => (name, write v path c))
  | _ :: _, c => c

def kind : Cell → String
  | leaf .. => "<class 'tomos.ayed2.evaluation.memory.MemoryCell'>"
  | array .. => "<class 'tomos.ayed2.evaluation.memory.ArrayCellCluster'>"
  | tuple .. => "<class 'tomos.ayed2.evaluation.memory.TupleCellCluster'>"

end Cell

end Chalkboard.Memory
