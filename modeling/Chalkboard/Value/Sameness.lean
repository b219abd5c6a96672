import Chalkboard.Value.Operators

/-! Whether a cell still has the value it had. What counts as the same constant is left open. -/

namespace Chalkboard.Value

variable (sameConstant : Constant → Constant → Bool)

mutual

/-- Whether a value is the same as one seen before. An undefined number by itself differs from all; one
inside an array or tuple is taken for the same here, and its origin is left to be compared. -/
def sameAs (inside : Bool) : Value → Value → Except Misuse Bool
  | .constant c, .constant d => .ok (sameConstant c d)
  | .real x, .real y => .ok (x == y || inside && x.isNaN && y.isNaN)
  | .list vs, .list ws => if vs.length == ws.length then sameItems vs ws else .ok false
  | .record vs, .record ws => if vs.length == ws.length then sameFields vs ws else .ok false
  | v, w => v.equal w

def sameItems : List Value → List Value → Except Misuse Bool
  | [], [] => .ok true
  | v :: vs, w :: ws => do if ← sameAs true v w then sameItems vs ws else return false
  | _, _ => .ok false

def sameFields : List (String × Value) → List (String × Value) → Except Misuse Bool
  | [], _ => .ok true
  | (name, v) :: fields, others =>
    match others.lookup name with
    | some w => do if ← sameAs true v w then sameFields fields others else return false
    | none => .ok false

end

end Chalkboard.Value
