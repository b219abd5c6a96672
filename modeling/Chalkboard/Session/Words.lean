/-! Texts made of words of any characters: each word stands behind its length. -/

namespace Chalkboard.Session

def writeWord (word : String) : String := toString word.length ++ ":" ++ word ++ "\n"

def writeWords (words : List String) : String := "".intercalate (words.map writeWord)

def lengthOf? (digits : List Char) : Option Nat :=
  if digits.isEmpty then none
  else digits.foldl (fun n c => do
    if c.isDigit then some (10 * (← n) + (c.toNat - '0'.toNat)) else none) (some 0)

def readWord? (cs : List Char) : Option (String × List Char) :=
  match cs.dropWhile (· != ':') with
  | ':' :: rest =>
    match lengthOf? (cs.takeWhile (· != ':')) with
    | some n =>
      match rest.drop n with
      | '\n' :: after => some (String.ofList (rest.take n), after)
      | _ => none
    | none => none
  | _ => none

def readWordsFrom : Nat → List Char → Option (List String)
  | _, [] => some []
  | 0, _ => none
  | fuel + 1, cs => do
    let (word, rest) ← readWord? cs
    return word :: (← readWordsFrom fuel rest)

def readWords? (s : String) : Option (List String) := readWordsFrom s.length s.toList

abbrev WordsM := StateT (List String) Option

def nextWord : WordsM String := fun words =>
  match words with
  | [] => none
  | w :: rest => some (w, rest)

def nextInt : WordsM Int := do
  match (← nextWord).toInt? with
  | some i => return i
  | none => failure

def nextNat : WordsM Nat := return (← nextInt).toNat

def nextBool : WordsM Bool := return (← nextWord) == "yes"

def nextMany {α : Type} (next : WordsM α) : Nat → WordsM (List α)
  | 0 => return []
  | n + 1 => return (← next) :: (← nextMany next n)

def nextList {α : Type} (next : WordsM α) : WordsM (List α) := do nextMany next (← nextNat)

def nextOption {α : Type} (next : WordsM α) : WordsM (Option α) := do
  if ← nextBool then return some (← next) else return none

def nextPair {α β : Type} (first : WordsM α) (second : WordsM β) : WordsM (α × β) :=
  return (← first, ← second)

def intWords (i : Int) : List String := [toString i]

def natWords (n : Nat) : List String := [toString n]

def boolWords (b : Bool) : List String := [if b then "yes" else "no"]

def listWords {α : Type} (words : α → List String) (items : List α) : List String :=
  toString items.length :: items.flatMap words

def optionWords {α : Type} (words : α → List String) : Option α → List String
  | none => boolWords false
  | some a => boolWords true ++ words a

end Chalkboard.Session
