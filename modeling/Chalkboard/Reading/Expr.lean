import Chalkboard.Number.Reading
import Chalkboard.Reading.Cursor
import Chalkboard.Syntax.Sentence

/-! Reading variables and expressions. Every call takes a token or goes to a smaller part, so as many
rounds as there are characters left are enough. -/

namespace Chalkboard.Reading

open Syntax (Lexeme Variable Step Expr UnaryOp BinaryOp LiteralKind)

/-- What can be looked up while reading: the constants that are known, and the environment. -/
structure Scope where
  constants : List String
  environment : List (String × String)

def Token.lexeme (t : Token) : Lexeme := ⟨t.text, t.line⟩

def readLiteral (kind : LiteralKind) : Read Expr := do
  let t ← look
  advance .afterLiteral
  return .literal kind t.lexeme

/-- A whole number that is written with too many digits is refused. -/
def checkInt (word : Lexeme) : Except Fault Unit :=
  if word.text == "inf" || (Number.readInt? word.text).isSome then pure ()
  else throw (.malformed word.line (.badLiteral "IntType" word.text))

def readInt : Read Expr := do
  checkInt (← look).lexeme
  readLiteral .integer

def readConstant (scope : Scope) : Read Expr := do
  let t ← look
  if scope.constants.contains t.text then readLiteral .enum
  else throw (.malformed t.line (.unknownConstant t.text))

/-- A character between quotes. Blanks and comments between the quotes do not count. -/
def readChar : Read Expr := do
  advance .character
  let t ← look
  advance .closeCharacter
  advance .afterLiteral
  return .literal .char t.lexeme

/-- The text of an environment variable, read as a literal of the type asked for. A truth value cannot
be had that way. -/
def environmentLiteral (type : String) (word : Lexeme) : Except Fault Expr :=
  match type with
  | "int" => do
    checkInt word
    return .literal .integer word
  | "real" =>
    if word.text == "inf" || (Number.readReal? word.text).isSome then return .literal .real word
    else throw (.malformed word.line (.badLiteral "RealType" word.text))
  | "char" =>
    if word.text.length == 1 then return .literal .char word
    else throw (.malformed word.line (.badLiteral "CharType" word.text))
  | _ => throw (.misuse (if word.text.isEmpty then .noSuchPart else .wrongPart))

def readGetenv (scope : Scope) : Read Expr := do
  advance .getenvOpen
  advance .getenvOpenQuote
  advance .getenvName
  let name ← look
  advance .getenvCloseQuote
  advance .getenvColon
  advance .getenvType
  let type ← look
  advance .getenvClose
  advance .afterLiteral
  match scope.environment.lookup name.text with
  | some text => environmentLiteral type.text ⟨text, name.line⟩
  | none => throw (.malformed name.line (.unsetEnvironment name.text))

def readItems (item : Read Expr) : Nat → Read (List Expr)
  | 0 => refuse
  | fuel + 1 => do
    let e ← item
    if (← look).kind == .symbol .comma then
      advance .expression
      return e :: (← readItems item fuel)
    else return [e]

def readSteps (item : Read Expr) : Nat → Variable → Read Variable
  | 0, v => return v
  | fuel + 1, v => do
    match (← look).kind with
    | .symbol .openBracket =>
      advance .expression
      let indexes ← readItems item fuel
      let _ ← expect (.symbol .closeBracket) .afterVariable
      readSteps item fuel (v.push (.index indexes))
    | .symbol .dot =>
      advance .fieldName
      let name ← expect .lowerName .afterVariable
      readSteps item fuel (v.push (.field name.text))
    | .symbol .arrow =>
      advance .fieldName
      let name ← expect .lowerName .afterVariable
      readSteps item fuel ((v.push .deref).push (.field name.text))
    | _ => return v

/-- Work that makes so many calls, each inside the one before. -/
def nesting (calls : Nat) : Read Unit :=
  if calls ≤ callDepth then pure () else throw (.misuse .endless)

/-- A chain of one kind of operators, of which some are read. It is put together by a call for each of them,
once the last is read. -/
def readChain (op : Terminal) (operand : Read Expr) : Nat → (operators : Nat) → Expr → Read Expr
  | 0, operators, e => do
    nesting operators
    return e
  | fuel + 1, operators, e => do
    let t ← look
    if t.kind == op then
      advance .expression
      let right ← operand
      readChain op operand fuel (operators + 1) (.binary e (BinaryOp.ofText t.text) right)
    else
      nesting operators
      return e

def levels : List Terminal := [.junction, .equality, .comparison, .term, .factor]

def readLevels (operand : Read Expr) (fuel : Nat) : List Terminal → Read Expr
  | [] => operand
  | op :: ops => do
    let e ← readLevels operand fuel ops
    readChain op (readLevels operand fuel ops) fuel 0 e

mutual

def readPrimary (scope : Scope) : Nat → Read Variable
  | 0 => refuse
  | fuel + 1 => do
    let t ← look
    match t.kind with
    | .variableName =>
      advance .afterVariable
      return ⟨t.lexeme, []⟩
    | .symbol .star =>
      advance .variablePrimary
      return (← readPrimary scope fuel).push .deref
    | .symbol .openParen =>
      advance .variablePrimary
      let v ← readPrimary scope fuel
      let v ← readSteps (readLevels (readOperand scope fuel) fuel levels) fuel v
      let _ ← expect (.symbol .closeParen) .afterVariable
      return v
    | _ => refuse

/-- An operand: a literal, a variable, an expression in brackets, or a unary operator with its
operand. A variable in brackets is still a variable, and steps may follow it. -/
def readOperand (scope : Scope) : Nat → Read Expr
  | 0 => refuse
  | fuel + 1 => do
    let t ← look
    match t.kind with
    | .unary =>
      advance .expression
      return .unary (UnaryOp.ofText t.text) (← readOperand scope fuel)
    | .int => readInt
    | .real => readLiteral .real
    | .word .inf => readLiteral .integer
    | .word .trueWord | .word .falseWord => readLiteral .boolean
    | .word .null => readLiteral .null
    | .constantName => readConstant scope
    | .symbol .quote => readChar
    | .word .getenv => readGetenv scope
    | .variableName =>
      advance .afterVariable
      let v ← readSteps (readLevels (readOperand scope fuel) fuel levels) fuel ⟨t.lexeme, []⟩
      return v.toExpr
    | .symbol .star =>
      advance .variablePrimary
      let v ← readPrimary scope fuel
      let v ← readSteps (readLevels (readOperand scope fuel) fuel levels) fuel (v.push .deref)
      return v.toExpr
    | .symbol .openParen =>
      advance .expression
      match ← readLevels (readOperand scope fuel) fuel levels with
      | .access name path =>
        let _ ← expect (.symbol .closeParen) .afterVariable
        let v ← readSteps (readLevels (readOperand scope fuel) fuel levels) fuel ⟨name, path⟩
        return v.toExpr
      | e =>
        let _ ← expect (.symbol .closeParen) .afterLiteral
        return e
    | _ => refuse

end

def rounds : Read Nat := return (← get).source.rest.length + 2

def readExpr (scope : Scope) : Read Expr := do
  let fuel ← rounds
  readLevels (readOperand scope fuel) fuel levels

def readVariable (scope : Scope) : Read Variable := do
  let fuel ← rounds
  let v ← readPrimary scope fuel
  readSteps (readLevels (readOperand scope fuel) fuel levels) fuel v

end Chalkboard.Reading
