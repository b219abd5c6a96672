import Chalkboard.Fault
import Chalkboard.Number.Shortest
import Chalkboard.Number.Whole

/-! Addresses: a partition of memory and a number in it. The heap comes before the stack in the order
of addresses. -/

namespace Chalkboard.Memory

inductive Partition where
  | stack
  | heap
  deriving DecidableEq, Repr

def Partition.letter : Partition → String
  | stack => "S"
  | heap => "H"

def Partition.ofLetter? : String → Option Partition
  | "S" => some stack
  | "H" => some heap
  | _ => none

structure Address where
  partition : Partition
  number : Int
  deriving DecidableEq, Repr

def hexNumber (n : Int) : String :=
  let digits := Nat.toDigits 16 n.natAbs
  String.ofList (if n < 0 then '-' :: Number.padLeft 4 '0' digits else Number.padLeft 5 '0' digits)

def Address.text (a : Address) : String := a.partition.letter ++ hexNumber a.number

/-- The text of an address as an item. It has the number in decimal, which may be too long. -/
def Address.display (a : Address) : Except Misuse String :=
  match Number.wholeText? a.number with
  | some number => .ok s!"MemoryAddress({a.partition.letter}, {number})"
  | none => .error .numeral

/-- Numbers that agree modulo this prime, sign and all, have the same key. -/
def keyPrime : Int := Number.twoTo 61 - 1

def keyOf (n : Int) : Int :=
  let key := n.tmod keyPrime
  if key == -1 then -2 else key

/-- Addresses are told apart by their partition and the key of their number. -/
def Address.same (a b : Address) : Bool :=
  a.partition == b.partition && keyOf a.number == keyOf b.number

def Address.before (a b : Address) : Bool :=
  match a.partition, b.partition with
  | .heap, .stack => true
  | .stack, .heap => false
  | _, _ => a.number < b.number

end Chalkboard.Memory
