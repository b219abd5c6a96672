import Chalkboard.Session
import Chalkboard.Session.Words

/-! Saved states as texts, to be kept in files. -/

namespace Chalkboard.Session

open Syntax (Expr Step Lexeme LiteralKind UnaryOp BinaryOp)
open Chalkboard.Types (TypeId Target Limit Axis Node Graph Registry)
open Memory (Address Cell Partition)

def lexemeWords (l : Lexeme) : List String := l.text :: natWords l.line

def nextLexeme : WordsM Lexeme := return ⟨← nextWord, ← nextNat⟩

def nextLiteralKind : WordsM LiteralKind := do
  match ← nextWord with
  | "BooleanLiteral" => return .boolean
  | "IntegerLiteral" => return .integer
  | "RealLiteral" => return .real
  | "CharLiteral" => return .char
  | "NullLiteral" => return .null
  | "EnumLiteral" => return .enum
  | _ => failure

mutual

def exprWords : Expr → List String
  | .literal kind word => "literal" :: kind.label :: lexemeWords word
  | .access name path => "access" :: (lexemeWords name ++ toString path.length :: pathWords path)
  | .unary op operand => "unary" :: op.text :: exprWords operand
  | .binary left op right => "binary" :: op.text :: (exprWords left ++ exprWords right)
  | .lazy body => "lazy" :: exprWords body
  | .stray shown text kind => ["stray", shown, text, kind]

def pathWords : List Step → List String
  | [] => []
  | s :: rest => stepWords s ++ pathWords rest

def stepWords : Step → List String
  | .deref => ["deref"]
  | .index indexes => "index" :: toString indexes.length :: indexWords indexes
  | .field name => ["field", name]

def indexWords : List Expr → List String
  | [] => []
  | e :: rest => exprWords e ++ indexWords rest

end

def nextStep (next : WordsM Expr) : WordsM Step := do
  match ← nextWord with
  | "deref" => return .deref
  | "index" => return .index (← nextList next)
  | "field" => return .field (← nextWord)
  | _ => failure

def nextExpr : Nat → WordsM Expr
  | 0 => failure
  | fuel + 1 => do
    match ← nextWord with
    | "literal" => return .literal (← nextLiteralKind) (← nextLexeme)
    | "access" => return .access (← nextLexeme) (← nextList (nextStep (nextExpr fuel)))
    | "unary" => return .unary (.ofText (← nextWord)) (← nextExpr fuel)
    | "binary" =>
      let op ← nextWord
      return .binary (← nextExpr fuel) (.ofText op) (← nextExpr fuel)
    | "lazy" => return .lazy (← nextExpr fuel)
    | "stray" => return .stray (← nextWord) (← nextWord) (← nextWord)
    | _ => failure

def realWords (x : Float) : List String := natWords x.toBits.toNat

def nextReal : WordsM Float := return Float.ofBits (UInt64.ofNat (← nextNat))

def addressWords (a : Address) : List String := a.partition.letter :: intWords a.number

def nextAddress : WordsM Address := do
  match Partition.ofLetter? (← nextWord) with
  | some p => return ⟨p, ← nextInt⟩
  | none => failure

def textWords (s : String) : List String := [s]

def constantWords (c : Constant) : List String :=
  natWords c.owner ++ optionWords textWords c.enumeration ++ c.name :: natWords c.number

def nextConstant : WordsM Constant :=
  return ⟨← nextNat, ← nextOption nextWord, ← nextWord, ← nextNat⟩

mutual

def valueWords : Value → List String
  | .unknown => ["unknown"]
  | .null => ["null"]
  | .bool b => "bool" :: boolWords b
  | .int i => "int" :: intWords i
  | .real x => "real" :: realWords x
  | .text s => ["text", s]
  | .address a => "address" :: addressWords a
  | .constant c => "constant" :: constantWords c
  | .lazy e => "lazy" :: exprWords e
  | .absent => ["absent"]
  | .list items => "list" :: toString items.length :: itemWords items
  | .record fields => "record" :: toString fields.length :: fieldWords fields

def itemWords : List Value → List String
  | [] => []
  | v :: rest => valueWords v ++ itemWords rest

def fieldWords : List (String × Value) → List String
  | [] => []
  | (name, v) :: rest => name :: (valueWords v ++ fieldWords rest)

end

def nextValue : Nat → WordsM Value
  | 0 => failure
  | fuel + 1 => do
    match ← nextWord with
    | "unknown" => return .unknown
    | "null" => return .null
    | "bool" => return .bool (← nextBool)
    | "int" => return .int (← nextInt)
    | "real" => return .real (← nextReal)
    | "text" => return .text (← nextWord)
    | "address" => return .address (← nextAddress)
    | "constant" => return .constant (← nextConstant)
    | "lazy" => return .lazy (← nextExpr fuel)
    | "absent" => return .absent
    | "list" => return .list (← nextList (nextValue fuel))
    | "record" => return .record (← nextList (nextPair nextWord (nextValue fuel)))
    | _ => failure

def limitWords : Limit → List String
  | .known v => "known" :: valueWords v
  | .pending e => "pending" :: exprWords e

def nextLimit (fuel : Nat) : WordsM Limit := do
  match ← nextWord with
  | "known" => return .known (← nextValue fuel)
  | "pending" => return .pending (← nextExpr fuel)
  | _ => failure

def axisWords (a : Axis) : List String := limitWords a.low ++ limitWords a.high

def targetWords : Target → List String
  | .settled t => "type" :: natWords t
  | .deferred _ name => ["name", name]

def nextTarget : WordsM Target := do
  match ← nextWord with
  | "type" => return .settled (← nextNat)
  | "name" => return .deferred .near (← nextWord)
  | _ => failure

def nodeWords : Node → List String
  | .int => ["int"]
  | .real => ["real"]
  | .bool => ["bool"]
  | .char => ["char"]
  | .pointer target => "pointer" :: targetWords target
  | .array element axes => "array" :: (natWords element ++ listWords axisWords axes)
  | .tuple name fields size =>
    "tuple" :: (optionWords textWords name ++
      listWords (fun (n, t) => n :: natWords t) fields ++ valueWords size)
  | .enum name constants =>
    "enum" :: (optionWords textWords name ++ listWords (fun (n, k) => n :: natWords k) constants)
  | .synonym name of => "synonym" :: (optionWords textWords name ++ natWords of)

def nextNode (fuel : Nat) : WordsM Node := do
  match ← nextWord with
  | "int" => return .int
  | "real" => return .real
  | "bool" => return .bool
  | "char" => return .char
  | "pointer" => return .pointer (← nextTarget)
  | "array" => return .array (← nextNat) (← nextList (return ⟨← nextLimit fuel, ← nextLimit fuel⟩))
  | "tuple" =>
    return .tuple (← nextOption nextWord) (← nextList (nextPair nextWord nextNat)) (← nextValue fuel)
  | "enum" => return .enum (← nextOption nextWord) (← nextList (nextPair nextWord nextNat))
  | "synonym" => return .synonym (← nextOption nextWord) (← nextNat)
  | _ => failure

mutual

def cellWords : Cell → List String
  | .leaf a t v => "leaf" :: (addressWords a ++ natWords t ++ valueWords v)
  | .array t parts => "array" :: (natWords t ++ toString parts.length :: partWords parts)
  | .tuple t parts => "tuple" :: (natWords t ++ toString parts.length :: namedPartWords parts)

def partWords : List Cell → List String
  | [] => []
  | c :: rest => cellWords c ++ partWords rest

def namedPartWords : List (String × Cell) → List String
  | [] => []
  | (name, c) :: rest => name :: (cellWords c ++ namedPartWords rest)

end

def nextCell : Nat → WordsM Cell
  | 0 => failure
  | fuel + 1 => do
    match ← nextWord with
    | "leaf" => return .leaf (← nextAddress) (← nextNat) (← nextValue fuel)
    | "array" => return .array (← nextNat) (← nextList (nextCell fuel))
    | "tuple" => return .tuple (← nextNat) (← nextList (nextPair nextWord (nextCell fuel)))
    | _ => failure

def registryWords (r : Registry) : List String :=
  listWords (fun (n, t) => n :: targetWords t) r.types ++
    listWords (fun (n, c) => n :: constantWords c) r.constants

def nextRegistry : WordsM Registry :=
  return ⟨← nextList (nextPair nextWord nextTarget), ← nextList (nextPair nextWord nextConstant)⟩

def archiveMark : String := "saved state"

def Saved.words (s : Saved) : List String :=
  archiveMark :: (listWords nodeWords s.types.graph.nodes.toList ++ registryWords s.types.registry ++
    listWords (fun (n, c) => n :: cellWords c) s.memory.stack ++
    listWords (fun (a, c) => addressWords a ++ cellWords c) s.memory.heap ++
    intWords s.memory.nextStack ++ intWords s.memory.nextHeap)

def nextSaved (fuel : Nat) : WordsM Saved := do
  if (← nextWord) != archiveMark then failure
  let nodes ← nextList (nextNode fuel)
  let registry ← nextRegistry
  let stack ← nextList (nextPair nextWord (nextCell fuel))
  let heap ← nextList (nextPair nextAddress (nextCell fuel))
  return ⟨⟨stack, heap, ← nextInt, ← nextInt⟩, { graph := ⟨nodes.toArray⟩, registry }⟩

def Saved.archive (s : Saved) : String := writeWords s.words

/-- The saved state in the text of a file, if there is one. Nothing is nested deeper than there are
words. -/
def Saved.ofArchive? (text : String) : Option Saved := do
  let words ← readWords? text
  let (saved, rest) ← (nextSaved words.length).run words
  if rest.isEmpty then some saved else none

end Chalkboard.Session
