import Chalkboard.Picture.Shade
import Chalkboard.Picture.Theme
import Chalkboard.Types.Graph

/-! The colours of types. A type without a colour gets the next spare one the first time it is seen;
a pointer gets a darker shade of what it points to. -/

namespace Chalkboard.Picture

open Chalkboard.Types (Graph TypeId Target)

structure Palette where
  /-- The colours given so far, by the text of the type. -/
  given : List (String × Value)
  spare : List Value

abbrev PaletteM := ExceptT Fault (StateM Palette)

def Theme.palette (t : Theme) : Palette := ⟨t.typeColours, t.spareColours⟩

namespace Palette

def give (name : String) (colour : Value) : PaletteM Value := do
  modify fun p => { p with given := p.given ++ [(name, colour)] }
  return colour

/-- Hands out a spare colour. The last one is never used up. -/
def handOut (name : String) : PaletteM Value := do
  match (← get).spare with
  | [] => throw (.misuse .noSuchPart)
  | [colour] => give name colour
  | colour :: rest =>
    modify fun p => { p with spare := rest }
    give name colour

def named (name : String) : PaletteM Value := do
  match (← get).given.lookup name with
  | some colour => return colour
  | none => handOut name

/-- The colour of a type; synonyms have the colour of what they stand for. The fuel bounds the chain
of pointers, which a type with a finite text does not exceed. -/
def colourFrom (g : Graph) : Nat → TypeId → PaletteM Value
  | 0, _ => throw (.misuse .endless)
  | fuel + 1, t => do
    let t ← g.closure t
    match g.node t with
    | .array .. => named "ArrayOf"
    | .tuple .. => named "Tuple"
    | node =>
      let text ← g.text t
      match (← get).given.lookup text with
      | some colour => return colour
      | none =>
        match node with
        | .pointer target =>
          let colour ← match target with
            | .settled t => colourFrom g fuel t
            | .deferred _ name => named (Types.deferredText name)
          give text (.text (← darken colour usualAmount true))
        | _ => handOut text

/-- What has a colour: a type, or something else that goes by its text. -/
inductive Subject where
  | type (t : TypeId)
  | stray (text kind : String)

def colour (g : Graph) : Subject → PaletteM Value
  | .type t => colourFrom g (g.nodes.size + 1) t
  | .stray text _ => named text

end Palette

end Chalkboard.Picture
