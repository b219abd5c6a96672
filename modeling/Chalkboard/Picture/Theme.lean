import Chalkboard.Value.Operators

/-! The look of the pictures: sizes, colours and words that can be set, each with its usual value. A
setting is kept as it is given, and it is only found wanting where it is used. -/

namespace Chalkboard.Picture

structure Theme where
  scale : Value := .int 1
  fontSize : Value := .int 20
  framesPerSecond : Value := .int 1
  frameFormat : Value := .text "png"
  /-- The look of a lit text, and whether drawing a text puts its light out. -/
  glow : Value := .text "#ffde00"
  glowOutline : Value := .text "#0f0f0f"
  glowWidth : Value := .int 3
  fades : Bool := true
  /-- Longer labels of parts are cut. -/
  labelLength : Value := .int 7
  codeStyle : Value := .text "ayed"
  codeBackground : Value := .text "#000000"
  previousLine : Value := .text "#4d0000"
  nextLine : Value := .text "#004d00"
  /-- The colours of arrows inside the heap, from the first lane outwards. -/
  laneColours : List Value :=
    ["#ffffff", "#b3b3b3", "#666666", "#a6a606", "#7b7b04", "#000000"].map .text
  /-- Colours for types that have none of their own. -/
  spareColours : List Value :=
    ["#737373", "#800000", "#6600cc", "#00b3b3", "#999900", "#404040"].map .text
  typeColours : List (String × Value) :=
    [("IntType", .text "#3333ff"), ("BoolType", .text "#994d00"), ("RealType", .text "#ff80ff"),
      ("CharType", .text "#e60000"), ("ArrayOf", .text "#ff9966"), ("Tuple", .text "#79d279")]

def Theme.set (t : Theme) (name : String) (v : Value) : Theme :=
  match name, v with
  | "SCALE", v => { t with scale := v }
  | "BASE_FONT_SIZE", v => { t with fontSize := v }
  | "FPS", v => { t with framesPerSecond := v }
  | "FRAME_FILE_FORMAT", v => { t with frameFormat := v }
  | "HIGHLIGHT_COLOR", v => { t with glow := v }
  | "HIGHLIGHT_OUTLINE_COLOR", v => { t with glowOutline := v }
  | "HIGHLIGHT_OUTLINE_WIDTH", v => { t with glowWidth := v }
  | "AUTO_DE_HIGHLIGHT", v => { t with fades := v.truthy }
  | "TUPLE_FIELD_NAME_MAX_LEN", v => { t with labelLength := v }
  | "CODEBOX_STYLE", v => { t with codeStyle := v }
  | "CODEBOX_BGCOLOR", v => { t with codeBackground := v }
  | "CODEBOX_PREV_LINE_BGCOLOR", v => { t with previousLine := v }
  | "CODEBOX_NEXT_LINE_BGCOLOR", v => { t with nextLine := v }
  | "POINTER_HEAP_ARROW_COLORS", .list vs => { t with laneColours := vs }
  | "UNNAMED_COLORS", .list vs => { t with spareColours := vs }
  | "COLOR_BY_TYPE", .record fs => { t with typeColours := fs }
  | _, _ => t

end Chalkboard.Picture
