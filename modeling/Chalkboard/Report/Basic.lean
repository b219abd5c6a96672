/-! Reports: what is told to other programs. A report is a tree of named fields and lists, written as
JSON. Numbers are held by their text, so that no digit is lost. -/

namespace Chalkboard

inductive Report where
  | null
  | bool (b : Bool)
  | number (digits : String)
  | text (s : String)
  | list (items : List Report)
  | fields (named : List (String × Report))

instance : Inhabited Report := ⟨.null⟩

namespace Report

def fourDigits (n : Nat) : List Char :=
  let digits := Nat.toDigits 16 n
  List.replicate (4 - digits.length) '0' ++ digits

/-- A character inside a written text. Quotes, backslashes and control characters are escaped. -/
def escaped (c : Char) : List Char :=
  if c == '"' || c == '\\' then ['\\', c]
  else if c.toNat < 32 then '\\' :: 'u' :: fourDigits c.toNat
  else [c]

def quotedText (s : String) : String := "\"" ++ String.ofList (s.toList.flatMap escaped) ++ "\""

mutual

def write : Report → String
  | null => "null"
  | bool b => if b then "true" else "false"
  | number digits => digits
  | text s => quotedText s
  | list items => "[" ++ ",".intercalate (writeItems items) ++ "]"
  | fields named => "\x7b" ++ ",".intercalate (writeFields named) ++ "\x7d"

def writeItems : List Report → List String
  | [] => []
  | r :: rest => r.write :: writeItems rest

def writeFields : List (String × Report) → List String
  | [] => []
  | (name, r) :: rest => (quotedText name ++ ":" ++ r.write) :: writeFields rest

end

end Report

/-- What can be told in a report. -/
class Reported (α : Type) where
  report : α → Report

export Reported (report)

instance : Reported Report := ⟨id⟩

instance : Reported Bool := ⟨.bool⟩

instance : Reported String := ⟨.text⟩

instance : Reported Int := ⟨fun i => .number (toString i)⟩

/-- A whole number that a double may not hold is told by its digits. -/
def Report.whole (i : Int) : Report :=
  if i.natAbs < 9007199254740992 then report i else .fields [("int", .text (toString i))]

instance : Reported Nat := ⟨fun n => report (n : Int)⟩

instance {α : Type} [Reported α] : Reported (Option α) := ⟨fun o => (o.map report).getD .null⟩

instance {α : Type} [Reported α] : Reported (List α) := ⟨fun l => .list (l.map report)⟩

instance {α β : Type} [Reported α] [Reported β] : Reported (α × β) :=
  ⟨fun (a, b) => .list [report a, report b]⟩

end Chalkboard
