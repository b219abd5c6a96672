import Chalkboard.Timeline.Basic

/-! Waiting before each sentence: for a line of input, or for some time. Declarations do not wait. -/

namespace Chalkboard.Display

open Syntax (Item)

/-- What a watcher that waits has seen: the lines of input left, what it printed, how often it slept. -/
structure Waiting where
  enters : Nat := 0
  printed : String := ""
  slept : Nat := 0

def prompt : String := "[Press Enter]... "

def waitForInput : ExceptT Fault (StateM Waiting) Unit := do
  modify fun w => { w with printed := w.printed ++ prompt }
  match (← get).enters with
  | 0 => throw (.misuse .endOfInput)
  | n + 1 => modify fun w => { w with enters := n }

def sleep : ExceptT Fault (StateM Waiting) Unit := modify fun w => { w with slept := w.slept + 1 }

def waiter (items : Array Item) (wait : ExceptT Fault (StateM Waiting) Unit) : Run.Watch Waiting :=
  { before := fun place _ => if Timeline.isDeclaration items place then pure () else wait }

end Chalkboard.Display
