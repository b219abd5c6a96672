import Chalkboard.Memory.Basic
import Chalkboard.Picture.Palette

/-! Sprites: the pictures of variables and heap cells. A box shows one value; an array or a tuple shows
a box for each of its parts. Pointers have an arrow. -/

namespace Chalkboard.Picture

open Chalkboard.Types (Graph TypeId Node)
open Memory (Address)
open Palette (Subject)

/-- Where the arrow of a pointer leads. -/
inductive Lead where
  | nowhere
  | null
  | cell (target : Address)
  deriving DecidableEq, Repr

/-- A caption in a frame, with the label beside it. -/
structure Box where
  label : String
  colour : Value
  inHeap : Bool
  text : String := ""
  /-- Whether the text is lit. -/
  lit : Bool := false
  /-- The arrow, if the box is that of a pointer. -/
  lead : Option Lead := none

/-- What parts of an array or a tuple go by. -/
inductive Key where
  | index (i : Nat)
  | field (name : String)
  deriving DecidableEq, Repr

structure Part where
  key : Key
  box : Box
  /-- The value shown. -/
  shown : Value

inductive Grouping where
  | array
  | tuple
  deriving DecidableEq, Repr

inductive Sprite where
  | single (box : Box)
  | group (kind : Grouping) (label : String) (colour : Value) (inHeap : Bool) (parts : List Part)

/-- What the making and changing of sprites depends on: the types, the look, the addresses that have a
sprite already, and whether new texts are lit. -/
structure Studio where
  graph : Graph
  theme : Theme
  known : List Address
  lights : Bool

/-- The text of a value in a box. A constant is shown by its name alone. -/
def boxText : Value → Except Misuse String
  | .constant c => .ok c.name
  | v => v.plain

/-- Where a pointer with this value leads. Lists and records cannot be looked up. -/
def leadOf (known : List Address) : Value → Except Fault Lead
  | .null => .ok .null
  | .address a => .ok (if known.any (·.same a) then .cell a else .nowhere)
  | .list _ | .record _ => .error (.misuse .unhashable)
  | _ => .ok .nowhere

/-- Shows another value. The text is changed before the arrow is looked for. -/
def Box.set (s : Studio) (v : Value) (b : Box) : Box × Except Fault Unit :=
  match boxText v with
  | .error m => (b, .error (.misuse m))
  | .ok text =>
    let b := { b with text := text, lit := s.lights }
    match b.lead with
    | none => (b, .ok ())
    | some _ =>
      match leadOf s.known v with
      | .ok lead => ({ b with lead := some lead }, .ok ())
      | .error e => (b, .error e)

def Box.make (s : Studio) (inHeap pointer : Bool) (label : Except Misuse String)
    (subject : Subject) (v : Value) : PaletteM Box := do
  let colour ← Palette.colour s.graph subject
  let label ← liftMisuse label
  let empty : Box := ⟨label, colour, inHeap, "", false, if pointer then some .nowhere else none⟩
  let (b, result) := empty.set s v
  result
  return b

def partValues : Grouping → Value → Except Fault (List (Key × Value))
  | .array, .list items => .ok (items.zipIdx.map fun (v, i) => (.index i, v))
  | .array, .text s => .ok (s.toList.zipIdx.map fun (c, i) => (.index i, .text c.toString))
  | .array, .record fields => .ok (fields.zipIdx.map fun ((name, _), i) => (.index i, .text name))
  | .array, _ => .error (.misuse .operands)
  | .tuple, .record fields => .ok (fields.map fun (name, v) => (.field name, v))
  | .tuple, _ => .error (.misuse .missingPart)

/-- Whether a part has to be shown anew. A constant is never taken for the one shown before. -/
def differs : Value → Value → Except Fault Bool
  | .constant _, .constant _ => .ok true
  | now, before => liftMisuse ((now.equal before).map not)

/-- Changes the part under a key, if it differs from what is shown or if all parts are to be shown
anew. -/
def setPart (s : Studio) (anew : Bool) (key : Key) (v : Value) :
    List Part → List Part × Except Fault Unit
  | [] => ([], .error (.misuse .noSuchKey))
  | p :: rest =>
    if p.key == key then
      match (if anew then .ok true else differs v p.shown) with
      | .error e => (p :: rest, .error e)
      | .ok false => (p :: rest, .ok ())
      | .ok true =>
        match p.box.set s v with
        | (box, .ok _) => (⟨key, box, v⟩ :: rest, .ok ())
        | (box, .error e) => ({ p with box := box } :: rest, .error e)
    else
      let (rest, result) := setPart s anew key v rest
      (p :: rest, result)

def setParts (s : Studio) (anew : Bool) (parts : List Part) :
    List (Key × Value) → List Part × Except Fault Unit
  | [] => (parts, .ok ())
  | (key, v) :: rest =>
    match setPart s anew key v parts with
    | (parts, .ok _) => setParts s anew parts rest
    | failed => failed

/-- Shows another value. What was changed before a failure stays changed. -/
def Sprite.set (s : Studio) (anew : Bool) (v : Value) : Sprite → Sprite × Except Fault Unit
  | single box =>
    let (box, result) := box.set s v
    (single box, result)
  | group kind label colour inHeap parts =>
    match partValues kind v with
    | .error e => (group kind label colour inHeap parts, .error e)
    | .ok values =>
      let (parts, result) := setParts s anew parts values
      (group kind label colour inHeap parts, result)

/-- Parts are drawn only if they are pointers, enumerations or of a basic type. -/
def partProblem? (g : Graph) (t : TypeId) : Except Fault (Option String) := do
  match g.node (← g.closure t) with
  | node@(.array ..) | node@(.tuple ..) | node@(.synonym ..) => return some node.kind
  | _ => return none

def extent (v : Value) : Except Fault Nat := v.length?.elim (.error (.misuse .operands)) .ok

def drawableArray (g : Graph) (t : TypeId) (v : Value) : Except Fault TypeId := do
  match g.node t with
  | .array element axes =>
    if let some kind ← partProblem? g element then throw (.undrawable (.elementKind kind))
    let sizes ← Types.shape axes
    match sizes with
    | [size] =>
      if !(← liftMisuse (size.equal (.int (← extent v)))) then
        let shape ← liftMisuse (Value.list sizes).display
        throw (.undrawable (.length shape (← liftMisuse v.plain)))
      return element
    | _ => throw (.undrawable (.shape (← liftMisuse (Value.list sizes).display)))
  | node => throw (.undrawable (.notArray node.kind))

def fieldTexts (g : Graph) (fields : List (String × TypeId)) : Except Fault String := do
  let texts ← fields.mapM fun (name, t) => return Text.quoted name ++ ": " ++ (← g.text t)
  return Text.braced texts

def drawableTuple (g : Graph) (t : TypeId) (v : Value) : Except Fault (List (String × TypeId)) := do
  match g.node t with
  | .tuple _ fields _ =>
    for (_, t) in fields do
      if let some kind ← partProblem? g t then throw (.undrawable (.fieldKind kind))
    if (← extent v) != fields.length then
      throw (.undrawable (.fields (← fieldTexts g fields) (← liftMisuse v.plain)))
    return fields
  | node => throw (.undrawable (.notTuple node.kind))

/-- The label of a part, cut where it is too long. Only a whole number says where to cut. -/
def partLabel (longest : Value) (key : Key) : Except Misuse String := do
  let name := match key with
    | .index i => s!"[{i}]"
    | .field name => name
  if !(← (Value.int name.length).more longest) then return name
  match longest.numeric? with
  | some (.whole n) =>
    let kept := if n < 0 then (name.length : Int) + n else n
    return String.ofList (name.toList.take kept.toNat) ++ "…"
  | _ => throw .operands

def placeholder : Value := .text "--"

def Sprite.makeGroup (s : Studio) (inHeap : Bool) (kind : Grouping) (label : String) (t : TypeId)
    (v : Value) (keys : List (Key × TypeId)) : PaletteM Sprite := do
  let colour ← Palette.colour s.graph (.type t)
  let parts ← keys.mapM fun (key, t) => do
    let t ← s.graph.closure t
    let label := partLabel s.theme.labelLength key
    return ⟨key, ← Box.make s inHeap (s.graph.isPointer t) label (.type t) placeholder, placeholder⟩
  let (parts, result) := setParts s true parts (← partValues kind v)
  result
  return group kind label colour inHeap parts

def Sprite.makeArray (s : Studio) (inHeap : Bool) (label : String) (subject : Subject) (v : Value) :
    PaletteM Sprite := do
  match subject with
  | .stray _ kind => throw (.undrawable (.notArray kind))
  | .type t =>
    let element ← drawableArray s.graph t v
    let keys := (List.range (← extent v)).map fun i => (Key.index i, element)
    makeGroup s inHeap .array label t v keys

def Sprite.makeTuple (s : Studio) (inHeap : Bool) (label : String) (subject : Subject) (v : Value) :
    PaletteM Sprite := do
  match subject with
  | .stray _ kind => throw (.undrawable (.notTuple kind))
  | .type t =>
    let fields ← drawableTuple s.graph t v
    makeGroup s inHeap .tuple label t v (fields.map fun (name, t) => (Key.field name, t))

def Sprite.makeSingle (s : Studio) (inHeap pointer : Bool) (label : String) (subject : Subject)
    (v : Value) : PaletteM Sprite :=
  return .single (← Box.make s inHeap pointer (.ok label) subject v)

def Sprite.make (s : Studio) (inHeap : Bool) (label : String) (t : TypeId) (v : Value) :
    PaletteM Sprite := do
  let t ← s.graph.closure t
  match s.graph.node t with
  | .pointer _ => makeSingle s inHeap true label (.type t) v
  | .array .. => makeArray s inHeap label (.type t) v
  | .tuple .. => makeTuple s inHeap label (.type t) v
  | _ => makeSingle s inHeap false label (.type t) v

end Chalkboard.Picture
