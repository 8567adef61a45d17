import DocQuery.Json.Printer
import DocQuery.Text.Blank

/-!
# Reports

The result of a run as it is shown: a document, a message of success, or an error. A document is shown as JSON on one
line, as indented JSON, or as indented text without quotes and brackets around its structure.
-/

namespace DocQuery

/-- How text sets off keys and messages. -/
inductive Emphasis where
  /-- By a label in front of a message. -/
  | label
  /-- By colours, which the reader of the text does not show. -/
  | hidden
  /-- By colours. -/
  | color
deriving DecidableEq, Repr

inductive Layout where
  | compact
  | indented
  | text (emphasis : Emphasis)
deriving DecidableEq, Repr

namespace Report

/-! ## Colours -/

def escapeCode (code : String) : String := "\x1b[" ++ code ++ "m"

/-- A text in the style of a code. A text that ends a style inside goes on in this one. -/
def paint (code : String) (text : String) : String :=
  let reset := escapeCode "0"
  escapeCode code ++ text.replace reset (reset ++ escapeCode code) ++ reset

def key (emphasis : Emphasis) (name : String) : String :=
  match emphasis with
  | .color => paint "36" name
  | _ => name

/-! ## Documents as text -/

def isFilledObject : Json → Bool
  | .obj fields => !fields.isEmpty
  | _ => false

/-- A value that takes lines of its own under its key. -/
def isBlock : Json → Bool
  | .obj fields => !fields.isEmpty
  | .arr items => !items.isEmpty
  | _ => false

mutual

/-- The lines of a value at a depth. -/
def lines (emphasis : Emphasis) (depth : Nat) : Json → List String
  | .obj fields =>
    if fields.isEmpty then [Json.margin depth ++ (Json.obj []).compact] else fieldLines emphasis depth fields
  | .arr items =>
    if items.isEmpty then [Json.margin depth ++ (Json.arr []).compact] else itemLines emphasis depth items
  | .null => [Json.margin depth ++ Json.null.compact]
  | .bool b => [Json.margin depth ++ (Json.bool b).compact]
  | .num n => [Json.margin depth ++ (Json.num n).compact]
  | .str s => [Json.margin depth ++ (Json.str s).compact]

/-- A field is a line with its value, or a line with its key and the lines of its value below. -/
def fieldLines (emphasis : Emphasis) (depth : Nat) : List (String × Json) → List String
  | [] => []
  | (name, value) :: rest =>
    let start := Json.margin depth ++ key emphasis name
    (if isBlock value then (start ++ ":") :: lines emphasis (depth + 1) value else [start ++ ": " ++ value.compact])
      ++ fieldLines emphasis depth rest

/-- An item is a line behind a dash; only an object with fields takes lines of its own. -/
def itemLines (emphasis : Emphasis) (depth : Nat) : List Json → List String
  | [] => []
  | item :: rest =>
    let start := Json.margin depth ++ "-"
    (if isFilledObject item then start :: lines emphasis (depth + 1) item else [start ++ " " ++ item.compact])
      ++ itemLines emphasis depth rest

end

/-- The lines of a document, each with its line end. The blanks behind the last one are cut off. -/
def text (emphasis : Emphasis) (document : Json) : String :=
  Text.trimEnd (String.join ((lines emphasis 0 document).map (· ++ "\n")))

end Report

namespace Layout

def document (layout : Layout) (json : Json) : String :=
  match layout with
  | .compact => json.compact
  | .indented => json.indented 0
  | .text emphasis => Report.text emphasis json

def error (layout : Layout) (message : String) : String :=
  match layout with
  | .compact => (Json.single "error" (.str message)).compact
  | .indented => (Json.single "error" (.str message)).indented 0
  | .text .label => "Error: " ++ message
  | .text .hidden => message
  | .text .color => Report.paint "1;31" message

def success (layout : Layout) (message : String) : String :=
  match layout with
  | .compact => (Json.single "success" (.str message)).compact
  | .indented => (Json.single "success" (.str message)).indented 0
  | .text .label => "OK: " ++ message
  | .text .hidden => message
  | .text .color => Report.paint "1;32" message

end Layout

end DocQuery
