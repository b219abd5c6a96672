/-! Patterns for names: a star stands for any text, a question mark for any character, and brackets for
one character of a set. -/

namespace Chalkboard.Text

/-- A piece of a pattern. A set holds ranges of characters; it may stand for those outside. -/
inductive Wildcard where
  | anything
  | anyOne
  | oneOf (outside : Bool) (ranges : List (Char × Char))
  | exactly (c : Char)
  deriving DecidableEq, Repr

namespace Wildcard

/-- The ranges of a set. A hyphen stands for itself where it does not join two characters. -/
def ranges : List Char → List (Char × Char)
  | low :: '-' :: high :: rest => (low, high) :: ranges rest
  | c :: rest => (c, c) :: ranges rest
  | [] => []

/-- The inside of a set and what follows its closing bracket, if there is one. A closing bracket that
comes first belongs to the set. -/
def inside? : List Char → Option (List Char × List Char)
  | [] => none
  | c :: cs =>
    match cs.dropWhile (· != ']') with
    | [] => none
    | _ :: rest => some (c :: cs.takeWhile (· != ']'), rest)

def set? : List Char → Option (Wildcard × List Char)
  | '!' :: cs => (inside? cs).map fun (set, rest) => (.oneOf true (ranges set), rest)
  | cs => (inside? cs).map fun (set, rest) => (.oneOf false (ranges set), rest)

/-- The pieces of a pattern; each takes a character at least. A bracket that is not closed stands for
itself. -/
def piecesFrom : Nat → List Char → List Wildcard
  | 0, _ | _, [] => []
  | fuel + 1, '*' :: cs => .anything :: piecesFrom fuel cs
  | fuel + 1, '?' :: cs => .anyOne :: piecesFrom fuel cs
  | fuel + 1, '[' :: cs =>
    match set? cs with
    | some (set, rest) => set :: piecesFrom fuel rest
    | none => .exactly '[' :: piecesFrom fuel cs
  | fuel + 1, c :: cs => .exactly c :: piecesFrom fuel cs

def pieces (pattern : String) : List Wildcard := piecesFrom pattern.length pattern.toList

def takes : Wildcard → Char → Bool
  | anything, _ | anyOne, _ => true
  | oneOf outside ranges, c => (ranges.any fun (low, high) => low ≤ c && c ≤ high) != outside
  | exactly d, c => c == d

def fits : List Wildcard → List Char → Bool
  | [], cs => cs.isEmpty
  | anything :: ps, [] => fits ps []
  | anything :: ps, c :: cs => fits ps (c :: cs) || fits (anything :: ps) cs
  | _ :: _, [] => false
  | p :: ps, c :: cs => p.takes c && fits ps cs

end Wildcard

def fitsPattern (pattern name : String) : Bool := Wildcard.fits (Wildcard.pieces pattern) name.toList

end Chalkboard.Text
