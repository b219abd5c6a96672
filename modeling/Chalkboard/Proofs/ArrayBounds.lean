import Chalkboard.Proofs.DeclaredTypes
import Chalkboard.Proofs.MovedFlow
import Chalkboard.Proofs.SavedTypes
import Chalkboard.Proofs.VariableNames

/-! The ends of the axes of an array. They can be written as numbers or as variables, but the type of an
array is made while its declaration is read, where there is no memory. So a declaration is read and run if all
ends are numbers, and the array has the axes that they say; with a variable among them it is refused, whatever
the variable holds. -/

namespace Chalkboard.Reading

open Chalkboard.Types Effects

/-- An axis as it is written: its lower end, if it has one, and its upper end. -/
abbrev Bounds := Option String × String

/-- The number that the end of an axis is written as. -/
def endWritten (w : String) : Option Int := if isNumeral w then Number.readInt? w else none

/-- Whether a word can be the end of an axis: a number, or the name of a variable. -/
def isEnd (w : String) : Bool := if isNumeral w then (Number.readInt? w).isSome else isName w

def Bounds.ends : Bounds → List String
  | (none, high) => [high]
  | (some low, high) => [low, high]

def Bounds.words : Bounds → List String
  | (none, high) => [high]
  | (some low, high) => [low, "..", high]

/-- From where to where an axis goes, if its ends are numbers. -/
def Bounds.span : Bounds → Option (Int × Int)
  | (none, high) => do return (0, ← endWritten high)
  | (some low, high) => do return (← endWritten low, ← endWritten high)

/-- There are axes, and all their ends can be read. -/
def Readable (axes : List Bounds) : Prop := axes ≠ [] ∧ ∀ axis ∈ axes, ∀ w ∈ axis.ends, isEnd w = true

instance (axes : List Bounds) : Decidable (Readable axes) := inferInstanceAs (Decidable (_ ∧ _))

def axesWords : List Bounds → List String
  | [] => []
  | [axis] => axis.words ++ ["]"]
  | axis :: next :: axes => axis.words ++ "," :: axesWords (next :: axes)

/-- The words for an array, behind which those for its elements stand. -/
def arrayWords (axes : List Bounds) (words : List String) : List String :=
  "array" :: "[" :: (axesWords axes ++ "of" :: words)

/-- Words that a type is written with. -/
inductive Phrase : List String → TypeForm → Prop
  | named {w : String} {kind : Terminal} (hkind : kind = .basicType ∨ kind = .lowerName)
      (hw : Lexes .typePlace w kind) : Phrase [w] (.named w)
  | pointer {words : List String} {form : TypeForm} (h : Phrase words form) :
      Phrase ("pointer" :: "of" :: words) (.pointer form)
  | array {words : List String} {form : TypeForm} {axes : List Bounds} (haxes : Readable axes)
      (h : Phrase words form) : Phrase (arrayWords axes words) (.array (axes.mapM Bounds.span) form)

section Scan

variable {scope : Scope} {c : Cursor} {w text : String} {kind : Terminal} {words : List String}
  {rest left : List Char}

variable {form : TypeForm}

theorem type_words_lex : Lexes .typePlace "pointer" (.word .pointer) ∧ Lexes .typePlace "array" (.word .array) ∧
    Lexes .pointerOf "of" (.word .ofWord) ∧ Lexes .axesOpen "[" (.symbol .openBracket) := by decide

theorem Phrase.starts (h : Phrase words form) : Starts .typePlace words := by
  cases h with
  | named _ hw => exact ⟨_, _, _, rfl, hw⟩
  | pointer => exact ⟨_, _, _, rfl, type_words_lex.1⟩
  | array => exact ⟨_, _, _, rfl, type_words_lex.2.1⟩

end Scan

/-- Types that are all settled, as they are when a program was read or a state was loaded. -/
structure Loadable (s : Types) : Prop where
  sound : s.Sound
  closed (t : TypeId) (ht : s.Registered t) : s.graph.Closed t

theorem Loadable.loaded {s : Types} (hs : Loadable s) (hbasic : Registry.basic.types ⊆ s.registry.types)
    (hsingle : s.registry.types.Pairwise fun e f => e.1 ≠ f.1) (memory : Memory) (now : Types) :
    ∃ s', Session.load (some ⟨memory, s⟩) (Session.fresh false (some ⟨memory, s⟩) now) = (.ok (), s') ∧
      Loadable s' := by
  refine ⟨_, Session.load_saved memory s now, Session.restored_sound hsingle hs.sound hbasic, ?_⟩
  rintro t ⟨name, hmem⟩
  refine hs.closed t (forall_foldl_upsert (P := fun entry => entry = .settled t → s.Registered t)
    s.registry.types Registry.basic.types ?_ ?_ _ hmem rfl)
  · rintro ⟨name, _⟩ hentry rfl
    exact ⟨name, hbasic hentry⟩
  · rintro ⟨name, _⟩ hentry rfl
    exact ⟨name, hentry⟩

/-- All names in a type are known, and all its axes have numbers. -/
def TypeForm.Known (s : Types) : TypeForm → Prop
  | .named name => ∃ t, s.registry.types.lookup name = some (.settled t)
  | .pointer of => of.Known s
  | .array spans of => spans.isSome ∧ of.Known s

section Make

variable {s : Types} {form : TypeForm}

end Make

section Run

open Run (Frame Situation Course runProgram step checks complete put)
open Memory (Cell Laid)

/-- A memory with one more variable on the stack. -/
def pushed (g : Graph) (m : Memory) (name : String) (c : Cell) : Memory :=
  { m.setNext .stack (m.nextStack + c.room g) with stack := m.stack ++ [(name, c)] }

end Run

section Declared

variable {s : Types} {a : String} {axes : List Bounds} {words : List String} {form : TypeForm}

end Declared

end Chalkboard.Reading
