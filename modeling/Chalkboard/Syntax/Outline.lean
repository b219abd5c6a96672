import Chalkboard.Syntax.Flow

/-! The outline of a program: one line for each declaration and sentence, blocks indented. -/

namespace Chalkboard.Syntax

open Chalkboard.Types (Graph)

def indentStep : String := "    "

def indentLines (indent : String) (text : String) : String :=
  text.toList.foldl (fun s c => if c == '\n' then s.push c ++ indent else s.push c) ""

def joinLineEnds : List Char → List Char
  | '\n' :: '\n' :: cs => joinLineEnds ('\n' :: cs)
  | c :: cs => c :: joinLineEnds cs
  | [] => []

def underTitle (title : String) (entries : List String) : String :=
  if entries.isEmpty then title ++ "\n"
  else title ++ indentLines indentStep ("\n" ++ "\n".intercalate entries)

/-- A title and named sections below it; a section that is `none` is empty. -/
def inSections (title : String) (sections : List (String × Option (List String))) : String :=
  let parts := sections.map fun (name, entries?) =>
    "\n" ++ indentStep ++ name ++ match entries? with
      | some entries =>
        indentLines (indentStep ++ indentStep) ("\n" ++ "\n".intercalate entries)
      | none => "\n"
  String.ofList (joinLineEnds (title ++ "\n" ++ String.join parts).toList)

def nonEmpty (entries : List String) : Option (List String) :=
  if entries.isEmpty then none else some entries

mutual

def Sentence.outline (title : Nat → String) (start : Nat) : Sentence → String
  | .branch _ yes no =>
    inSections (title start)
      [("then", nonEmpty (blockOutline title (start + 1) yes)),
        ("else", nonEmpty (blockOutline title (start + 1 + extents yes) no))]
  | .loop _ body => underTitle (title start) (blockOutline title (start + 1) body)
  | .count _ _ _ _ body => underTitle (title start) (blockOutline title (start + 1) body)
  | _ => title start

def blockOutline (title : Nat → String) (start : Nat) : List Sentence → List String
  | [] => []
  | s :: rest => s.outline title start :: blockOutline title (start + s.extent) rest

end

def withNext (linked : Bool) (text : String) (next : Option String) : String :=
  if linked then text ++ " -> " ++ next.getD "None" else text

def chainLines (linked : Bool) : List String → List String
  | [] => []
  | [t] => [withNext linked t none]
  | t :: u :: rest => withNext linked t (some u) :: chainLines linked (u :: rest)

/-- The outline of a program. Procedures have no outline. -/
def Program.outline (g : Graph) (linked : Bool) (p : Program) : Except Fault String := do
  let types ← p.types.mapM (TypeDeclaration.display g)
  if p.procedures != 0 then throw (.misuse .notListable)
  let items := p.items
  let texts := (← items.mapM fun i => i.action.display g).toArray
  let titles := (items.zip texts.toList).toArray.map fun (i, t) =>
    withNext linked t (i.next.bind (texts[·]?))
  let title := fun n => titles.getD n ""
  let body := (List.range p.declarations.length).map title ++
    blockOutline title p.declarations.length p.sentences
  return inSections "Program"
    [("typedef_section", nonEmpty (chainLines linked types)), ("funprocdef_section", none),
      ("body", some body)]

end Chalkboard.Syntax
