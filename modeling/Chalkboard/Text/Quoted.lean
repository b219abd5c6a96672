import Chalkboard.Number.Shortest
import Chalkboard.Text.Printable

/-! Quoted texts, as lists and records show them: between single quotes, or between double quotes when
the text holds a single quote and no double one. -/

namespace Chalkboard.Text

def hexEscape (c : Char) : List Char :=
  let digits := Nat.toDigits 16 c.toNat
  if c.toNat < 0x100 then '\\' :: 'x' :: Number.padLeft 2 '0' digits
  else if c.toNat < 0x10000 then '\\' :: 'u' :: Number.padLeft 4 '0' digits
  else '\\' :: 'U' :: Number.padLeft 8 '0' digits

def escape (quote c : Char) : List Char :=
  if c == quote || c == '\\' then ['\\', c]
  else if c == '\n' then ['\\', 'n']
  else if c == '\r' then ['\\', 'r']
  else if c == '\t' then ['\\', 't']
  else if isPrintable c then [c]
  else hexEscape c

def quoted (s : String) : String :=
  let cs := s.toList
  let quote := if cs.contains '\'' && !cs.contains '"' then '"' else '\''
  String.ofList (quote :: (cs.flatMap (escape quote) ++ [quote]))

def bracketed (items : List String) : String := "[" ++ ", ".intercalate items ++ "]"

def braced (items : List String) : String := "\x7b" ++ ", ".intercalate items ++ "\x7d"

end Chalkboard.Text
