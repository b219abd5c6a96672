import Chalkboard.Value.Format

/-! The operators. Truth values count as 0 and 1 among numbers, whole numbers have no bound, a whole
number and a real are compared exactly and otherwise meet as reals, characters are texts that can be
joined and repeated. -/

namespace Chalkboard

namespace Value

def truthy : Value → Bool
  | bool b => b
  | int i => i != 0
  | real x => !Number.isZero x
  | text s => s != ""
  | absent => false
  | list items => !items.isEmpty
  | record fields => !fields.isEmpty
  | _ => true

def length? : Value → Option Nat
  | text s => some s.length
  | list items => some items.length
  | record fields => some fields.length
  | _ => none

def toReal (n : Numeric) : Except Misuse Float := n.toReal?.elim (.error .overflow) .ok

/-- An operation on two numbers: whole if both are, otherwise among reals. -/
def arithmetic (onWhole : Int → Int → Except Misuse Value) (onReal : Float → Float → Except Misuse Value)
    (a b : Value) : Except Misuse Value :=
  match a.numeric?, b.numeric? with
  | some (.whole i), some (.whole j) => onWhole i j
  | some m, some n => do onReal (← toReal m) (← toReal n)
  | _, _ => .error .operands

def add : Value → Value → Except Misuse Value
  | text s, text t => .ok (text (s ++ t))
  | a, b => arithmetic (fun i j => .ok (int (i + j))) (fun x y => .ok (real (x + y))) a b

def sub : Value → Value → Except Misuse Value :=
  arithmetic (fun i j => .ok (int (i - j))) (fun x y => .ok (real (x - y)))

/-- A text so many times over; a count or a length beyond 64 bits is refused. -/
def replicate (s : String) (count : Int) : Except Misuse Value :=
  let length := s.length * count.toNat
  if (Number.twoTo 63 : Int) ≤ count || count < -(Number.twoTo 63 : Int) then .error .overflow
  else if Number.twoTo 63 ≤ length then .error .overflow
  else if Place.longest < length then .error .noRoom
  else .ok (text (if length == 0 then "" else String.join (List.replicate count.toNat s)))

def mul (a b : Value) : Except Misuse Value :=
  match a, b, a.numeric?, b.numeric? with
  | text s, _, _, some (.whole n) => replicate s n
  | _, text s, some (.whole n), _ => replicate s n
  | _, _, _, _ => arithmetic (fun i j => .ok (int (i * j))) (fun x y => .ok (real (x * y))) a b

def divide : Value → Value → Except Misuse Value :=
  arithmetic
    (fun i j =>
      if j == 0 then .error .divisionByZero
      else (Number.quotient? i j).elim (.error .overflow) (.ok ∘ real))
    (fun x y => if Number.isZero y then .error .divisionByZero else .ok (real (x / y)))

/-- The remainder has the sign of the divisor. A text is taken as a format. -/
def remainder : Value → Value → Except Misuse Value
  | text s, b => (formatted s b).map text
  | a, b =>
    arithmetic
      (fun i j => if j == 0 then .error .divisionByZero else .ok (int (i.fmod j)))
      (fun x y => if Number.isZero y then .error .divisionByZero else .ok (real (Number.remainder x y)))
      a b

mutual

/-- Whether two values are equal. An address is compared through its key, which lists and records
lack. -/
def equal : Value → Value → Except Misuse Bool
  | .unknown, .unknown => .ok true
  | .null, .null => .ok true
  | .absent, .absent => .ok true
  | .text s, .text t => .ok (s == t)
  | .address a, .address b => .ok (a.same b)
  | .constant c, .constant d => .ok (c.same d)
  | .address _, .list _ | .list _, .address _ | .address _, .record _ | .record _, .address _ =>
    .error .unhashable
  | .list vs, .list ws => if vs.length == ws.length then equalItems vs ws else .ok false
  | .record vs, .record ws =>
    if vs.length == ws.length then equalFields vs ws else .ok false
  | a, b =>
    match a.numeric?, b.numeric? with
    | some m, some n => .ok (m.order n == some .eq)
    | _, _ => .ok false

def equalItems : List Value → List Value → Except Misuse Bool
  | [], [] => .ok true
  | v :: vs, w :: ws => do if ← equal v w then equalItems vs ws else return false
  | _, _ => .ok false

/-- Every field of the first is an equal field of the second. -/
def equalFields : List (String × Value) → List (String × Value) → Except Misuse Bool
  | [], _ => .ok true
  | (name, v) :: fields, others =>
    match others.lookup name with
    | some w => do if ← equal v w then equalFields fields others else return false
    | none => .ok false

end

def order (a b : Value) : Except Misuse (Option Ordering) :=
  match a, b, a.numeric?, b.numeric? with
  | text s, text t, _, _ => .ok (some (compare s t))
  | _, _, some m, some n => .ok (m.order n)
  | _, _, _, _ => .error .operands

/-- Addresses have a strict order of their own, asked from the smaller side only. -/
def less (a b : Value) : Except Misuse Bool :=
  match a, b with
  | address x, address y => .ok (x.before y)
  | address _, _ => .error .addressOrder
  | _, _ => (order a b).map (· == some .lt)

def lessEqual (a b : Value) : Except Misuse Bool :=
  (order a b).map fun o => o == some .lt || o == some .eq

def more (a b : Value) : Except Misuse Bool :=
  match b with
  | address _ => less b a
  | _ => (order a b).map (· == some .gt)

def moreEqual (a b : Value) : Except Misuse Bool :=
  (order a b).map fun o => o == some .gt || o == some .eq

def negate (v : Value) : Except Misuse Value :=
  match v.numeric? with
  | some (.whole i) => .ok (int (-i))
  | some (.real x) => .ok (real (-x))
  | none => .error .operands

def plus (v : Value) : Except Misuse Value :=
  match v.numeric? with
  | some (.whole i) => .ok (int i)
  | some (.real x) => .ok (real x)
  | none => .error .operands

end Value

end Chalkboard
