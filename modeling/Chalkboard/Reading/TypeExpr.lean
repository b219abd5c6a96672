import Chalkboard.Reading.Sentence
import Chalkboard.Syntax.Program
import Chalkboard.Types.Build

/-! Reading types and type declarations. A type is made as soon as it is read, so a fault in it is
reported before anything further on. -/

namespace Chalkboard.Reading

open Syntax (Expr TypeDeclaration)
open Chalkboard.Types (TypeId Target Limit Axis Limits TypesM)

/-- What holds for one reading: the limits and the environment. -/
structure Setting where
  limits : Limits := {}
  environment : List (String × String) := []

/-- Reading that makes types. The types made before a fault stay. -/
abbrev Declare := StateT Cursor TypesM

def reading {α : Type} (r : Read α) : Declare α := fun c =>
  match r c with
  | .ok found => pure found
  | .error e => throw e

def typing {α : Type} (m : TypesM α) : Declare α := fun c => do return (← m, c)

def scopeOf (setting : Setting) : Declare Scope := do
  return ⟨(← typing get).constantNames, setting.environment⟩

def readLimit (setting : Setting) (spot : Spot) : Declare Expr := do
  let t ← reading look
  match t.kind with
  | .int =>
    reading (liftM (checkInt t.lexeme))
    reading (advance spot)
    return .literal .integer t.lexeme
  | _ => return (← reading (readVariable (← scopeOf setting))).toExpr

/-- One axis. An axis that gives one end starts at zero. -/
def readAxis (setting : Setting) : Declare (Option Expr × Expr) := do
  let first ← readLimit setting .afterAxisStart
  if (← reading look).kind == .symbol .dots then
    reading (advance .axis)
    return (some first, ← readLimit setting .afterAxisEnd)
  else return (none, first)

def readAxes (setting : Setting) : Nat → Declare (List (Option Expr × Expr))
  | 0 => reading refuse
  | fuel + 1 => do
    let axis ← readAxis setting
    if (← reading look).kind == .symbol .comma then
      reading (advance .axis)
      return axis :: (← readAxes setting fuel)
    else
      let _ ← reading (expect (.symbol .closeBracket) .axesClose)
      return [axis]

/-- An end of an axis must be a literal: there is no memory to read a variable from. -/
def limitValue : Expr → Declare Limit
  | .literal _ word =>
    match Number.readInt? word.text with
    | some n => return .known (.int n)
    | none => throw (.misuse .noMemory)
  | _ => throw (.misuse .noMemory)

def axisOf : Option Expr × Expr → Declare Axis
  | (some low, high) => return ⟨← limitValue low, ← limitValue high⟩
  | (none, high) => return ⟨.known (.int 0), ← limitValue high⟩

def readType (setting : Setting) : Nat → Declare Target
  | 0 => reading refuse
  | fuel + 1 => do
    let t ← reading look
    match t.kind with
    | .basicType | .lowerName =>
      reading (advance .afterTypeName)
      return (← typing get).target t.text
    | .word .pointer =>
      reading (advance .pointerOf)
      reading (advance .typePlace)
      let target ← readType setting fuel
      return .settled (← typing (Types.add (.pointer target)))
    | .word .array =>
      reading (advance .axesOpen)
      reading (advance .axis)
      let axes ← readAxes setting fuel
      reading (advance .typePlace)
      match ← readType setting fuel with
      | .deferred .. => throw (.misuse .wrongPart)
      | .settled element =>
        let axes ← axes.mapM axisOf
        return .settled (← typing (Types.add (.array element axes)))
    | _ => reading refuse

/-- Names of constants up to the end of the enumeration; separators between them may be left out. -/
def readConstants : Nat → Declare (List String)
  | 0 => reading refuse
  | fuel + 1 => do
    let t ← reading look
    match t.kind with
    | .upperName =>
      reading (advance .afterConstant)
      if (← reading look).kind == .separator then reading (advance .constantOrEnd)
      return t.text :: (← readConstants fuel)
    | .word .endWord =>
      reading (advance .endEnumerate)
      reading (advance .declarationEnd)
      return []
    | _ => reading refuse

/-- Fields up to the end of the tuple; separators between them may be left out. -/
def readFields (setting : Setting) : Nat → Declare (List (String × Target))
  | 0 => reading refuse
  | fuel + 1 => do
    let t ← reading look
    match t.kind with
    | .lowerName =>
      reading (advance .afterVariable)
      let _ ← reading (expect (.symbol .colon) .typePlace)
      let type ← readType setting fuel
      if (← reading look).kind == .separator then reading (advance .fieldOrEnd)
      return (t.text, type) :: (← readFields setting fuel)
    | .word .endWord =>
      reading (advance .endTuple)
      reading (advance .declarationEnd)
      return []
    | _ => reading refuse

def roundsLeft : Declare Nat := reading rounds

/-- The right side of a type declaration. It is made only when a separator follows. -/
def readTypeBody (setting : Setting) : Declare (TypesM TypeId) := do
  let fuel ← roundsLeft
  match (← reading look).kind with
  | .word .enumerate =>
    reading (advance .firstConstant)
    let names ← readConstants fuel
    return Types.addEnum names
  | .word .tuple =>
    reading (advance .firstField)
    let fields ← readFields setting fuel
    return Types.addTuple fields
  | _ =>
    let target ← readType setting fuel
    return Types.addSynonym target

def reserved : List String :=
  ["type", "enumerate", "end", "tuple", "if", "then", "else", "fi", "while", "do", "od", "alloc",
    "free", "true", "false", "inf", "null", "int", "bool", "real", "char", "pointer", "array", "of"]

def readTypeDeclaration (setting : Setting) : Declare TypeDeclaration := do
  reading (advance .typeName)
  let name ← reading look
  reading (advance .typeEquals)
  reading (advance .typeBody)
  let body ← readTypeBody setting
  if (← reading look).kind != .separator then reading refuse
  let type ← typing body
  if reserved.contains name.text then throw (.typing (.reservedType name.text))
  typing (Types.register setting.limits name.text type)
  reading (advance .start)
  return ⟨name.lexeme, type⟩

end Chalkboard.Reading
