import Chalkboard.Syntax.Sentence
import Chalkboard.Types.Graph

/-! Programs: type declarations, variable declarations, sentences. -/

namespace Chalkboard.Syntax

open Chalkboard.Types (TypeId Graph)

structure TypeDeclaration where
  name : Lexeme
  type : TypeId

structure Declaration where
  place : Variable
  type : TypeId

structure Program where
  types : List TypeDeclaration
  /-- How many procedures are announced; they have no content. -/
  procedures : Nat
  declarations : List Declaration
  sentences : List Sentence

def TypeDeclaration.display (g : Graph) (d : TypeDeclaration) : Except Fault String :=
  return s!"TypeDeclaration(name={d.name.text}, type={← g.text d.type})"

def Declaration.name (d : Declaration) : String := d.place.name.text

def Declaration.line (d : Declaration) : Nat := d.place.line

def Declaration.display (g : Graph) (d : Declaration) : Except Fault String :=
  return s!"VarDeclaration(name={d.name}, type={← g.text d.type})"

end Chalkboard.Syntax
