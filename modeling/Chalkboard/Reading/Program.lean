import Chalkboard.Reading.TypeExpr

/-! Reading whole programs. -/

namespace Chalkboard.Reading

open Syntax (TypeDeclaration Declaration Program)
open Chalkboard.Types (TypeId Target TypesM)

def readTypeSection (setting : Setting) : Nat → Declare (List TypeDeclaration)
  | 0 => return []
  | fuel + 1 => do
    if (← reading look).kind == .word .typeWord then
      let d ← readTypeDeclaration setting
      return d :: (← readTypeSection setting fuel)
    else return []

def readProcedures : Nat → Declare Nat
  | 0 => return 0
  | fuel + 1 => do
    if (← reading look).kind == .procedure then
      reading (advance .afterProcedure)
      return (← readProcedures fuel) + 1
    else return 0

/-- The type of a variable. Its open targets are settled right away. -/
def variableType (target : Target) : TypesM TypeId := do
  match target with
  | .deferred side name => Types.lookUpIn side name
  | .settled t =>
    if (← get).graph.hasDeferrals t then Types.settle t
    return t

def readDeclaration (setting : Setting) : Declare Declaration := do
  reading (advance .variablePrimary)
  let v ← reading (readVariable (← scopeOf setting))
  let _ ← reading (expect (.symbol .colon) .typePlace)
  let fuel ← roundsLeft
  let target ← readType setting fuel
  if (← reading look).kind != .separator then reading refuse
  if reserved.contains v.name.text then throw (.typing (.reservedVariable v.name.text))
  let type ← typing (variableType target)
  reading (advance .afterVariableDeclaration)
  return ⟨v, type⟩

def readVariableSection (setting : Setting) : Nat → Declare (List Declaration)
  | 0 => return []
  | fuel + 1 => do
    if (← reading look).kind == .word .varWord then
      let d ← readDeclaration setting
      return d :: (← readVariableSection setting fuel)
    else return []

def readSections (setting : Setting) : Declare Program := do
  let types ← readTypeSection setting (← roundsLeft)
  let procedures ← readProcedures (← roundsLeft)
  let declarations ← readVariableSection setting (← roundsLeft)
  let sentences ← reading (readSentences (← scopeOf setting))
  if (← reading look).kind != .finish then reading refuse
  return ⟨types, procedures, declarations, sentences⟩

/-- Reads a program and leaves its open targets open. Its types are added to those at hand. -/
def readUnsettled (setting : Setting) (text : String) : TypesM Program := do
  let start ← ({ rest := text.toList : Source }).next .start none
  let (program, _) ← (readSections setting).run start
  return program

/-- Reads a program. Open targets are settled at the end. -/
def readProgram (setting : Setting) (text : String) : TypesM Program := do
  let program ← readUnsettled setting text
  Types.settleAll
  return program

end Chalkboard.Reading
