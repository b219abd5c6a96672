import Chalkboard.Run.Store
import Chalkboard.Value.Sameness

/-! Undefined numbers are told apart by where they come from. One that is computed is a new one each
time; one that is copied from another leaf stays the same. -/

namespace Chalkboard.Run

open Syntax (Expr Variable)
open Memory (Address Cell)

/-- Where an undefined number comes from: it was in a leaf from the start, or it was computed. -/
inductive Origin where
  | given (leaf : Address)
  | computed (number : Nat)
  deriving DecidableEq

/-- The origins of the undefined numbers written so far, and how many were computed. -/
structure Origins where
  computed : Nat := 0
  leaves : List (Address × Origin) := []

namespace Origins

def of (o : Origins) (leaf : Address) : Origin :=
  ((o.leaves.find? fun (a, _) => a.same leaf).map (·.2)).getD (.given leaf)

def set (o : Origins) (leaf : Address) (origin : Origin) : Origins :=
  { o with leaves := (leaf, origin) :: o.leaves.filter fun (a, _) => !a.same leaf }

end Origins

def isUndefined : Value → Bool
  | .real x => x.isNaN
  | _ => false

def leafOf? (env : Env) (m : Memory) (v : Variable) : Option Address :=
  match locate env m v with
  | .ok (_, .leaf a _ _) => some a
  | _ => none

/-- The leaf whose undefined number an expression hands on. A junction that is undefined hands on its
right side. -/
def handedOn? (env : Env) (m : Memory) : Expr → Option Address
  | .access name path => leafOf? env m ⟨name, path⟩
  | .binary _ op right => if op.isJunction then handedOn? env m right else none
  | _ => none

def Origins.write (o : Origins) (env : Env) (m : Memory) (v : Variable) (e : Expr) : Origins :=
  match leafOf? env m v with
  | none => o
  | some leaf =>
    match handedOn? env m e with
    | some source => o.set leaf (o.of source)
    | none => { o with computed := o.computed + 1 }.set leaf (.computed o.computed)

mutual

def undefinedLeaves : Cell → List Address
  | .leaf a _ v => if isUndefined v then [a] else []
  | .array _ parts => undefinedInParts parts
  | .tuple _ parts => undefinedInFields parts

def undefinedInParts : List Cell → List Address
  | [] => []
  | c :: cs => undefinedLeaves c ++ undefinedInParts cs

def undefinedInFields : List (String × Cell) → List Address
  | [] => []
  | (_, c) :: cs => undefinedLeaves c ++ undefinedInFields cs

end

def Origins.inside (o : Origins) (c : Cell) : List Origin := (undefinedLeaves c).map o.of

/-- A value with the origins of the undefined numbers in it. -/
structure Held where
  value : Value
  origins : List Origin := []

/-- Whether what is held is the same as before, where constants are compared as given. -/
def Held.sameAs (sameConstant : Constant → Constant → Bool) (now before : Held) : Except Misuse Bool := do
  return (← now.value.sameAs sameConstant false before.value) && now.origins == before.origins

end Chalkboard.Run
