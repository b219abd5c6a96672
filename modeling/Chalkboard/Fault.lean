/-! Everything that can go wrong, as causes. The wording of each cause stands in one place, the
`message` functions; causes that have no wording are told apart by their constructors alone. -/

namespace Chalkboard

/-- A tree that cannot be built. -/
inductive SyntaxProblem where
  | emptyBlock
  | badLiteral (type text : String)
  | unknownConstant (name : String)
  | unsetEnvironment (name : String)
  | badType (part : String)
  | badConstantName (part kind : String)
  | badTupleField (part kind : String)
  | badFieldAccess (parts : String)
  | badArrowAccess (parts : String)
  | badIndexing (parts : String)
  | badBinary (parts : String)
  | badExpression (parts : String)
  | badArrayType (parts : String)
  | badAxis (parts : String)
  | badAxisStart (parts : String)
  | badAxisEnd (parts : String)
  | guardNotExpression
  | branchesNotLists
  | blockNotList
  | loopVariableNotVariable
  | startNotExpression
  | endNotExpression
  | directionNotBool
  | destinationNotVariable (kind : String)
  | valueNotExpression (kind : String)
  deriving DecidableEq, Repr

def SyntaxProblem.message : SyntaxProblem → String
  | emptyBlock => "sentences must not be empty"
  | badLiteral type text => s!"Invalid literal for {type}: {text}"
  | unknownConstant name => s!"Invalid enum literal: {name}"
  | unsetEnvironment name => s!"Environment variable {name} is not defined"
  | badType part => s!"Invalid type {part}"
  | badConstantName part kind =>
    s!"Invalid enum literal {part}. Expected token, got {kind} instead."
  | badTupleField part kind => s!"Invalid tuple field {part}. Expected tuple, got {kind} instead."
  | badFieldAccess parts => s!"Invalid variable field access: {parts}"
  | badArrowAccess parts => s!"Invalid variable field arrow access: {parts}"
  | badIndexing parts => s!"Invalid variable indexing: {parts}"
  | badBinary parts => s!"Invalid binary expression: {parts}"
  | badExpression parts => s!"Invalid expression: {parts}"
  | badArrayType parts => s!"Invalid array type definition with args: {parts}"
  | badAxis parts => s!"Invalid array size. Axis {parts}"
  | badAxisStart parts => s!"Invalid array size. Axis from {parts}"
  | badAxisEnd parts => s!"Invalid array size. Axis to {parts}"
  | guardNotExpression => "guard must be an expression"
  | branchesNotLists => "then_sentences and else_sentences must be lists"
  | blockNotList => "sentences must be lists"
  | loopVariableNotVariable => "variable must be a variable"
  | startNotExpression => "start must be an expression"
  | endNotExpression => "end must be an expression"
  | directionNotBool => "direction_up must be True or False"
  | destinationNotVariable kind => s!"dest_variable must be a variable, not {kind} instead"
  | valueNotExpression kind => s!"expr must be an expression, not {kind} instead"

/-- A type that cannot be made, named or used as asked. -/
inductive TypeProblem where
  | reservedVariable (name : String)
  | reservedType (name : String)
  | fieldsNotMapping (kind : String)
  | noFields
  | fieldNameNotText (kind : String)
  | fieldTypeNotType (kind : String)
  | indexCount (expected got : Nat)
  | indexNotInteger (indexes : String)
  | indexOutOfBounds (index axis : String)
  | pendingAxis
  | unknownConstant (name available : String)
  | notUserDefined (type : String)
  | alreadyRegistered (name : String)
  | constantsOverlap (names : String)
  | unknownType (name available : String)
  | stillDeferred (name : String)
  | allocNotPointer (place : String)
  | freeNotPointer (place : String)
  | invalidValue (place type value kind : String)
  deriving DecidableEq, Repr

def TypeProblem.message : TypeProblem → String
  | reservedVariable name => s!"Cant use {name} as variable name because it is reserved"
  | reservedType name => s!"Type name {name} is reserved"
  | fieldsNotMapping kind => s!"Expected dict, got {kind} instead."
  | noFields => "Tuple must have at least one field."
  | fieldNameNotText kind => s!"Declaring Tuple, field name must be a string. Got {kind} instead."
  | fieldTypeNotType kind => s!"Declaring Tuple, field type. Expected Ayed2Type, got {kind} instead."
  | indexCount expected got => s!"Wrong number of indexes. Expected {expected}, got {got}"
  | indexNotInteger indexes => s!"Expected integer indexes, got {indexes}"
  | indexOutOfBounds index axis => s!"Index {index} is out of bounds for axis {axis}"
  | pendingAxis => "Need to evaluate axis expressions first"
  | unknownConstant name available =>
    s!"Unknown enum constant: {name}. Available constants are: {available}"
  | notUserDefined type =>
    s!"Cant register type {type} because it does not inherit from UserDefinedType."
  | alreadyRegistered name => s!"Type {name} is already registered."
  | constantsOverlap names => s!"Enum constants overlap: {names}"
  | unknownType name available => s!"Unknown type: {name}. Available types are: {available}"
  | stillDeferred name => s!"Deferred type {name} has not been resolved yet."
  | allocNotPointer place => s!"Cannot allocate. Variable {place} is not a pointer."
  | freeNotPointer place => s!"Cannot free. Variable {place} is not a pointer."
  | invalidValue place type value kind =>
    s!"Variable {place} was declared of type {type}, but attempted to set value " ++
      s!"{value}({kind}) that's not valid for this type."

inductive SynonymProblem where
  | notType (part kind : String)
  | tooLong (limit : Nat)
  deriving DecidableEq, Repr

def SynonymProblem.message : SynonymProblem → String
  | notType part kind =>
    s!"Cant create a synonym of {part}, expected Ayed2Type instance, got {kind} instead."
  | tooLong limit => s!"Synonym closure limit ({limit}) exceeded"

/-- A literal or operator that has no value. -/
inductive EvaluationProblem where
  | boolean (text : String)
  | null (text : String)
  | char (text : String)
  | integer (text : String)
  | real (text : String)
  | unaryOperator (text : String)
  | binaryOperator (text : String)
  deriving DecidableEq, Repr

def EvaluationProblem.message : EvaluationProblem → String
  | boolean text => s!"Invalid boolean value {text}"
  | null text => s!"Invalid literal for pointers: {text}"
  | char text => s!"Invalid char value \"{text}\""
  | integer text => s!"Invalid integer value {text}"
  | real text => s!"Invalid real value {text}"
  | unaryOperator text => s!"Invalid unary operator {text}"
  | binaryOperator text => s!"Invalid binary operator {text}"

/-- A cell that cannot be reached, or not used that way. -/
inductive MemoryProblem where
  | dangling (place value : String)
  | freeDangling (place value : String)
  | notTuple (place cell type field : String)
  | noField (place field : String)
  | wholeRead (kind : String)
  | wholeWrite (kind : String)
  deriving DecidableEq, Repr

def MemoryProblem.message : MemoryProblem → String
  | dangling place value =>
    s!"Accessing var {place}. Can't dereference a pointer to address ({value})"
  | freeDangling place value =>
    s!"Cannot free. Variable {place} (pointing to {value}) is not pointing to memory cell on the heap."
  | notTuple place cell type field =>
    s!"Accessing var {place}, {cell}, {type}. Can't access field {field}."
  | noField place field => s!"For var {place}. Can't access field {field}."
  | wholeRead kind => s!"Cell type {kind} can't be accessed directly."
  | wholeWrite kind => s!"Cell type {kind} can't be modified directly."

inductive RuntimeProblem where
  | noEvaluator
  | unknownCall (name : String)
  deriving DecidableEq, Repr

def RuntimeProblem.message : RuntimeProblem → String
  | noEvaluator => "Expression evaluator not set."
  | unknownCall name => s!"Unknown builtin call {name}"

/-- A value that has no picture. -/
inductive DrawingProblem where
  | notArray (kind : String)
  | notTuple (kind : String)
  | elementKind (kind : String)
  | fieldKind (kind : String)
  | shape (sizes : String)
  | length (sizes value : String)
  | fields (names value : String)
  deriving DecidableEq, Repr

def DrawingProblem.message : DrawingProblem → String
  | notArray kind => s!"Cannot draw a '{kind}' as an array."
  | notTuple kind => s!"Cannot draw a '{kind}' as a tuple."
  | elementKind kind => s!"Cannot draw an array of type '{kind}'."
  | fieldKind kind => s!"Cannot draw an tuple with field of type '{kind}'."
  | shape sizes => s!"Cannot draw an array of shape '{sizes}'."
  | length sizes value => s!"Cannot draw an array with shape '{sizes}' and value '{value}'."
  | fields names value => s!"Cannot draw a tuple with fields '{names}' and value '{value}'."

/-- A resource limit that a program went over. -/
inductive Exceeded where
  | arraySize
  | arrayDimensions
  | tupleSize
  | steps
  | memory
  | typeDepth
  deriving DecidableEq, Repr

/-- Causes without wording. -/
inductive Misuse where
  /-- An operator does not take values of these kinds. -/
  | operands
  | divisionByZero
  /-- A whole number too large to become a real or a count. -/
  | overflow
  /-- A format text that is cut short or names no known conversion. -/
  | format
  /-- A whole number with too many digits to be written. -/
  | numeral
  /-- A text too long to be held. -/
  | noRoom
  /-- An address is ordered only against addresses. -/
  | addressOrder
  /-- A tuple is read or written only field by field. -/
  | wholeTuple
  /-- No memory is at hand while a program is read. -/
  | noMemory
  /-- Only a pointer is followed. -/
  | notPointer
  /-- Only an array is indexed. -/
  | notArray
  /-- A part of the wrong kind where a tree or a type is built. -/
  | wrongPart
  /-- A part that lacks what is asked of it. -/
  | missingPart
  /-- Too few parts. -/
  | noSuchPart
  /-- The parts do not fit the number expected. -/
  | partCount
  /-- An array is settled only on the way down from a type that holds it. -/
  | noTrail
  /-- Calls that nest too deep, or that have no end. -/
  | endless
  /-- The program has no sentence to start with. -/
  | emptyProgram
  /-- An empty array has no address. -/
  | emptyArray
  /-- No value is admitted as a whole. -/
  | notAdmitted
  /-- Nothing is known under this key. -/
  | noSuchKey
  /-- A field of the wrong kind in a declaration. -/
  | invalidField
  /-- The text of a whole body is not defined. -/
  | noText
  /-- A trunk of the tree that cannot be listed. -/
  | notListable
  /-- A number of elements that is no count. -/
  | notCount
  /-- An array without axes has no layout. -/
  | noAxes
  | fileNotFound
  | isFolder
  | notFolder
  /-- A file that holds no text. -/
  | notText
  /-- A file that holds no saved state. -/
  | notSaved
  /-- The input ended before the run did. -/
  | endOfInput
  /-- A value that has no hash. -/
  | unhashable
  /-- A panel without position. -/
  | noPosition
  deriving DecidableEq, Repr

/-- How deep calls may nest. Those that surround the work are not counted. -/
def callDepth : Nat := 1000

inductive Fault where
  | unexpected (token : String) (line column : Nat)
  | malformed (line : Option Nat) (problem : SyntaxProblem)
  | typing (problem : TypeProblem)
  | synonym (problem : SynonymProblem)
  | constantNotText (kind : String)
  | evaluation (problem : EvaluationProblem)
  | undeclared (name : String)
  | alreadyDeclared (name : String)
  | memory (problem : MemoryProblem)
  | runtime (problem : RuntimeProblem)
  | undrawable (problem : DrawingProblem)
  | limit (exceeded : Exceeded)
  | noBehaviour (part kind : String)
  | misuse (cause : Misuse)
  /-- The program ends with an exit code. -/
  | exit (code : String)
  /-- The command line is wrong. -/
  | usage (message : String)
  /-- A picture could not be played. -/
  | playing (message : String)
  deriving DecidableEq, Repr

def liftMisuse {α : Type} : Except Misuse α → Except Fault α
  | .ok a => .ok a
  | .error m => .error (.misuse m)

def Fault.message : Fault → Option String
  | unexpected .. | misuse _ => none
  | malformed none p => some p.message
  | malformed (some line) p => some s!"On line {line}: {p.message}."
  | typing p => some p.message
  | synonym p => some p.message
  | constantNotText kind => some s!"Enum constant_names must be strings, not {kind}"
  | evaluation p => some p.message
  | undeclared name => some s!"Can't access variable \"{name}\". It was not declared."
  | alreadyDeclared name => some s!"Variable {name} already declared."
  | memory p => some p.message
  | runtime p => some p.message
  | undrawable p => some p.message
  | limit _ => some ""
  | noBehaviour part kind => some s!"No behaviour defined for {part} ({kind})"
  | exit code => some code
  | usage message => some message
  | playing message => some message

end Chalkboard
