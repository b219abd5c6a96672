import Chalkboard.Reading.Terminal

/-! Spots: where the reader stands, told by what was read last. At each spot only some terminals are
looked for. A spot knows nothing of what is open around it, so some of the terminals it lets through
are refused by the sentence they end up in. -/

namespace Chalkboard.Reading

inductive Spot where
  /-- At the start, and after each type declaration. -/
  | start
  | afterProcedure
  | afterVariableDeclaration
  | typeName
  | typeEquals
  | typeBody
  | typePlace
  | afterTypeName
  | pointerOf
  | axesOpen
  | axis
  | afterAxisStart
  | afterAxisEnd
  | axesClose
  | firstConstant
  | afterConstant
  | constantOrEnd
  | endEnumerate
  | firstField
  | fieldOrEnd
  | endTuple
  | declarationEnd
  | variablePrimary
  | fieldName
  | afterVariable
  | expression
  | afterLiteral
  | character
  | closeCharacter
  | getenvOpen
  | getenvOpenQuote
  | getenvName
  | getenvCloseQuote
  | getenvColon
  | getenvType
  | getenvClose
  | callOpen
  | forName
  | forAssign
  | thenBlock
  | elseBlock
  | doBlock
  | afterSentence
  | afterSeparator
  deriving DecidableEq, Repr

open Terminal in
def sentenceStarts : List Terminal :=
  [variableName, symbol .openParen, symbol .star, word .alloc, word .free, word .forWord, word .ifWord,
    word .whileWord, word .skip]

open Terminal in
def literalFollowers : List Terminal :=
  [separator, comparison, junction, equality, factor, term, word .doWord, word .downto, word .elseWord,
    word .fi, word .od, word .thenWord, word .toWord, symbol .closeParen, symbol .comma,
    symbol .closeBracket, finish]

open Terminal in
def Spot.accepts : Spot → List Terminal
  | start => word .typeWord :: procedure :: word .varWord :: finish :: sentenceStarts
  | afterProcedure => procedure :: word .varWord :: finish :: sentenceStarts
  | afterVariableDeclaration => word .varWord :: finish :: sentenceStarts
  | typeName => [lowerName]
  | typeEquals => [symbol .equals]
  | typeBody =>
    [basicType, lowerName, word .array, word .enumerate, word .pointer, word .tuple]
  | typePlace => [basicType, lowerName, word .array, word .pointer]
  | afterTypeName => [lowerName, separator, word .endWord]
  | pointerOf | axesClose => [word .ofWord]
  | axesOpen => [symbol .openBracket]
  | axis => [variableName, int, symbol .openParen, symbol .star]
  | afterAxisStart => [symbol .dots, symbol .comma, symbol .closeBracket]
  | afterAxisEnd => [symbol .comma, symbol .closeBracket]
  | firstConstant => [upperName]
  | afterConstant => [upperName, separator, word .endWord]
  | constantOrEnd => [upperName, word .endWord]
  | endEnumerate => [word .enumerate]
  | firstField | fieldName => [lowerName]
  | fieldOrEnd => [lowerName, word .endWord]
  | endTuple => [word .tuple]
  | declarationEnd => [separator]
  | variablePrimary => [variableName, symbol .openParen, symbol .star]
  | afterVariable =>
    symbol .assign :: symbol .arrow :: symbol .dots :: symbol .colon :: symbol .dot ::
      symbol .openBracket :: literalFollowers
  | expression =>
    [real, variableName, constantName, int, word .falseWord, word .getenv, word .inf, word .null,
      word .trueWord, unary, symbol .openParen, symbol .quote, symbol .star]
  | afterLiteral => literalFollowers
  | character => [char]
  | closeCharacter => [symbol .quote]
  | getenvOpen | callOpen => [symbol .openParen]
  | getenvOpenQuote | getenvCloseQuote => [symbol .doubleQuote]
  | getenvName => [anyName]
  | getenvColon => [symbol .colon]
  | getenvType => [basicType]
  | getenvClose => [symbol .closeParen]
  | forName => [variableName]
  | forAssign => [symbol .assign]
  | thenBlock => word .elseWord :: word .fi :: sentenceStarts
  | elseBlock => word .fi :: sentenceStarts
  | doBlock => word .od :: sentenceStarts
  | afterSentence => [separator, word .elseWord, word .fi, word .od, finish]
  | afterSeparator => word .elseWord :: word .fi :: word .od :: finish :: sentenceStarts

end Chalkboard.Reading
