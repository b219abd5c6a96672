import Chalkboard.Fault
import Chalkboard.Reading.Spot

/-! The reader's cursor: one token looked at, and the text behind it. Blanks and comments before a
token are dropped, but a line end right where a separator is looked for is a separator. -/

namespace Chalkboard.Reading

structure Token where
  kind : Terminal
  text : String
  line : Nat
  column : Nat

/-- The text still to be read and where it stands. -/
structure Source where
  rest : List Char
  line : Nat := 1
  column : Nat := 1

structure Cursor where
  look : Token
  source : Source

def Source.past (s : Source) : List Char → Source
  | [] => s
  | c :: cs =>
    Source.past
      { rest := s.rest.drop 1
        line := if c == '\n' then s.line + 1 else s.line
        column := if c == '\n' then 1 else s.column + 1 } cs

/-- What is being dropped: nothing yet, a run of blanks, a comment. -/
inductive Skipping where
  | nothing
  | blanks
  | comment

def isBlank (c : Char) : Bool := c == ' ' || c == '\t' || c == '\x0c' || c == '\r' || c == '\n'

/-- The characters to drop before the next token. A run of blanks takes line ends with it. -/
def skipped (separator : Bool) : Skipping → List Char → List Char
  | _, [] => []
  | .comment, c :: cs =>
    if c != '\n' then c :: skipped separator .comment cs
    else if separator then []
    else c :: skipped separator .blanks cs
  | mode, c :: cs =>
    let opens := match mode with
      | .nothing => true
      | _ => false
    let ends := c == '\n' || c == '\r' && cs.head? == some '\n'
    if separator && opens && ends then []
    else if isBlank c then c :: skipped separator .blanks cs
    else if c == '/' && cs.head? == some '/' then c :: skipped separator .comment cs
    else []

/-- A keyword that one of the accepted classes of names holds is not looked for by itself. -/
def heldByName (accepts : List Terminal) : Terminal → Bool
  | .word _ => accepts.any Terminal.holdsWords
  | _ => false

def asKeyword (accepts : List Terminal) (kind : Terminal) (text : String) : Terminal :=
  if kind.holdsWords then
    (accepts.find? fun
      | .word w => w.text == text
      | _ => false).getD kind
  else kind

def firstMatch (accepts : List Terminal) (cs : List Char) : Option (Terminal × List Char) :=
  (Terminal.order.filter fun t => accepts.contains t && !heldByName accepts t).findSome? fun t =>
    (t.match? cs).map fun (m, _) => (asKeyword accepts t (String.ofList m), m)

def anyMatch (cs : List Char) : List Char :=
  ((Terminal.order.findSome? fun t => t.match? cs).map (·.1)).getD []

/-- Reads the next token at a spot. `before` is the token read last: the end of the input stands
where that token started. -/
def Source.next (s : Source) (spot : Spot) (before : Option Token) : Except Fault Cursor :=
  let accepts := spot.accepts
  let s := s.past (skipped (accepts.contains .separator) .nothing s.rest)
  match s.rest with
  | [] =>
    let (line, column) := match before with
      | some t => (t.line, t.column)
      | none => (1, 1)
    if accepts.contains .finish then .ok ⟨⟨.finish, "", line, column⟩, s⟩
    else .error (.unexpected "" line column)
  | rest =>
    match firstMatch accepts rest with
    | some (kind, text) => .ok ⟨⟨kind, String.ofList text, s.line, s.column⟩, s.past text⟩
    | none => .error (.unexpected (String.ofList (anyMatch rest)) s.line s.column)

abbrev Read := StateT Cursor (Except Fault)

def look : Read Token := return (← get).look

def advance (spot : Spot) : Read Unit := do
  let c ← get
  set (← c.source.next spot (some c.look))

def refuse {α : Type} : Read α := do
  let t ← look
  throw (.unexpected t.text t.line t.column)

def expect (kind : Terminal) (spot : Spot) : Read Token := do
  let t ← look
  if t.kind == kind then
    advance spot
    return t
  else refuse

end Chalkboard.Reading
