/-! The kinds of tokens, and what text each kind matches at the start of an input. -/

namespace Chalkboard.Reading

inductive Word where
  | enumerate
  | pointer
  | getenv
  | downto
  | alloc
  | array
  | falseWord
  | tuple
  | whileWord
  | elseWord
  | free
  | null
  | skip
  | thenWord
  | trueWord
  | typeWord
  | endWord
  | forWord
  | inf
  | varWord
  | doWord
  | fi
  | ifWord
  | od
  | ofWord
  | toWord
  deriving DecidableEq, Repr

def Word.text : Word → String
  | enumerate => "enumerate"
  | pointer => "pointer"
  | getenv => "getenv"
  | downto => "downto"
  | alloc => "alloc"
  | array => "array"
  | falseWord => "false"
  | tuple => "tuple"
  | whileWord => "while"
  | elseWord => "else"
  | free => "free"
  | null => "null"
  | skip => "skip"
  | thenWord => "then"
  | trueWord => "true"
  | typeWord => "type"
  | endWord => "end"
  | forWord => "for"
  | inf => "inf"
  | varWord => "var"
  | doWord => "do"
  | fi => "fi"
  | ifWord => "if"
  | od => "od"
  | ofWord => "of"
  | toWord => "to"

inductive Symbol where
  | assign
  | arrow
  | dots
  | colon
  | comma
  | doubleQuote
  | dot
  | equals
  | openParen
  | openBracket
  | quote
  | closeParen
  | closeBracket
  | star
  deriving DecidableEq, Repr

def Symbol.text : Symbol → String
  | assign => ":="
  | arrow => "->"
  | dots => ".."
  | colon => ":"
  | comma => ","
  | doubleQuote => "\""
  | dot => "."
  | equals => "="
  | openParen => "("
  | openBracket => "["
  | quote => "'"
  | closeParen => ")"
  | closeBracket => "]"
  | star => "*"

inductive Terminal where
  | basicType
  | real
  | anyName
  | lowerName
  | variableName
  | constantName
  | upperName
  | separator
  | int
  | procedure
  | word (w : Word)
  | comparison
  | junction
  | equality
  | factor
  | term
  | unary
  | char
  | symbol (s : Symbol)
  /-- The end of the input. -/
  | finish
  deriving DecidableEq, Repr

/-- The order in which terminals are tried: names and numbers, then fixed texts from long to short.
The first that matches wins, even where another would match more. -/
def Terminal.order : List Terminal :=
  [basicType, real, anyName, lowerName, variableName, constantName, upperName, separator, int,
    procedure, word .enumerate, word .pointer, word .getenv, word .downto, word .alloc, word .array,
    word .falseWord, word .tuple, word .whileWord, word .elseWord, word .free, word .null, word .skip,
    word .thenWord, word .trueWord, word .typeWord, word .endWord, word .forWord, word .inf,
    word .varWord, comparison, junction, equality, word .doWord, word .fi, word .ifWord, word .od,
    word .ofWord, word .toWord, symbol .assign, symbol .arrow, symbol .dots, factor, term, unary, char,
    symbol .colon, symbol .comma, symbol .doubleQuote, symbol .dot, symbol .equals, symbol .openParen,
    symbol .openBracket, symbol .quote, symbol .closeParen, symbol .closeBracket, symbol .star]

def isLower (c : Char) : Bool := 'a' ≤ c && c ≤ 'z'

def isUpper (c : Char) : Bool := 'A' ≤ c && c ≤ 'Z'

def isDigit (c : Char) : Bool := '0' ≤ c && c ≤ '9'

def isNameStart (c : Char) : Bool := isLower c || isUpper c || c == '_'

def isNameChar (c : Char) : Bool := isNameStart c || isDigit c

/-- A first character of one class, then as many of another as there are. -/
def run (first rest : Char → Bool) : List Char → Option (List Char × List Char)
  | c :: cs => if first c then some (c :: cs.takeWhile rest, cs.dropWhile rest) else none
  | [] => none

def fixed : List Char → List Char → Option (List Char × List Char)
  | [], cs => some ([], cs)
  | p :: ps, c :: cs => if p == c then (fixed ps cs).map fun (m, r) => (p :: m, r) else none
  | _ :: _, [] => none

def oneOf (texts : List String) (cs : List Char) : Option (List Char × List Char) :=
  texts.findSome? fun t => fixed t.toList cs

def digits : List Char → Option (List Char × List Char) := run isDigit isDigit

def exponent : List Char → Option (List Char × List Char)
  | e :: s :: cs =>
    if e == 'e' || e == 'E' then
      if s == '+' || s == '-' then (digits cs).map fun (m, r) => (e :: s :: m, r)
      else (digits (s :: cs)).map fun (m, r) => (e :: m, r)
    else none
  | _ => none

def exponentOrNot (before rest : List Char) : List Char × List Char :=
  match exponent rest with
  | some (m, r) => (before ++ m, r)
  | none => (before, rest)

/-- Digits with an exponent, or with a point and possibly an exponent. -/
def realNumber (cs : List Char) : Option (List Char × List Char) :=
  let whole := cs.takeWhile isDigit
  let rest := cs.dropWhile isDigit
  match whole, rest with
  | [], '.' :: r => (digits r).map fun (m, r) => exponentOrNot ('.' :: m) r
  | [], _ => none
  | _, '.' :: r => some (exponentOrNot (whole ++ '.' :: r.takeWhile isDigit) (r.dropWhile isDigit))
  | _, _ => (exponent rest).map fun (m, r) => (whole ++ m, r)

/-- A semicolon, or as many line ends as follow each other. -/
def lineEnds : List Char → List Char × List Char
  | '\r' :: '\n' :: cs =>
    let (m, r) := lineEnds cs
    ('\r' :: '\n' :: m, r)
  | '\n' :: cs =>
    let (m, r) := lineEnds cs
    ('\n' :: m, r)
  | cs => ([], cs)

def separators : List Char → Option (List Char × List Char)
  | ';' :: cs => some ([';'], cs)
  | cs =>
    match lineEnds cs with
    | ([], _) => none
    | found => some found

def Terminal.match? (t : Terminal) (cs : List Char) : Option (List Char × List Char) :=
  match t with
  | basicType => oneOf ["bool", "real", "char", "int"] cs
  | real => realNumber cs
  | anyName => run isNameStart isNameChar cs
  | lowerName | variableName => run (fun c => isLower c || c == '_') isNameChar cs
  | constantName | upperName => run isUpper isNameChar cs
  | separator => separators cs
  | int => digits cs
  | procedure => oneOf ["<<FUNPROCDECLARATION>>"] cs
  | word w => oneOf [w.text] cs
  | comparison => oneOf [">=", "<=", ">", "<"] cs
  | junction => oneOf ["&&", "||"] cs
  | equality => oneOf ["!=", "=="] cs
  | factor => oneOf ["/", "*", "%"] cs
  | term => oneOf ["-", "+"] cs
  | unary => oneOf ["!", "-"] cs
  | char => run (· != '\n') (fun _ => false) cs
  | symbol s => oneOf [s.text] cs
  | finish => none

def Terminal.holdsWords : Terminal → Bool
  | anyName | lowerName | variableName => true
  | _ => false

end Chalkboard.Reading
