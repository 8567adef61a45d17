import DocQuery.Json.Basic
import DocQuery.Number.Shortest

/-!
# JSON text

Two layouts of a value: `Json.compact` on one line without blanks, and `Json.indented` with two blanks a level.
-/

namespace DocQuery

/-! ## Scalars -/

/-- Doubles from `0.00001` up to `10 ^ 16` are written positionally. -/
def Json.numberFormat : DecimalFormat := ⟨-5, 16⟩

def Number.render : Number → String
  | .int n => toString n
  | .float x => Json.numberFormat.render x

namespace Json

/-- The lower-case hexadecimal digit of a number below sixteen. -/
def hexDigit (n : Nat) : Char := if n < 10 then Char.ofNat ('0'.toNat + n) else Char.ofNat ('a'.toNat + (n - 10))

/-- A character inside a string literal. Quote, backslash and the control characters below the blank are escaped. -/
def escapeChar (c : Char) : List Char :=
  if c = '"' then ['\\', '"']
  else if c = '\\' then ['\\', '\\']
  else if c = '\n' then ['\\', 'n']
  else if c = '\r' then ['\\', 'r']
  else if c = '\t' then ['\\', 't']
  else if c = '\x08' then ['\\', 'b']
  else if c = '\x0c' then ['\\', 'f']
  else if c < ' ' then ['\\', 'u', '0', '0', hexDigit (c.toNat / 16), hexDigit (c.toNat % 16)]
  else [c]

/-- A string literal. -/
def quote (s : String) : String := "\"" ++ String.ofList (s.toList.flatMap escapeChar) ++ "\""

/-! ## One line -/

mutual

/-- The text of a value on one line, without blanks. -/
def compact : Json → String
  | .null => "null"
  | .bool b => if b then "true" else "false"
  | .num n => n.render
  | .str s => quote s
  | .arr items => "[" ++ ",".intercalate (compactItems items) ++ "]"
  | .obj fields => "\x7b" ++ ",".intercalate (compactFields fields) ++ "\x7d"

def compactItems : List Json → List String
  | [] => []
  | item :: rest => item.compact :: compactItems rest

def compactFields : List (String × Json) → List String
  | [] => []
  | (key, value) :: rest => (quote key ++ ":" ++ value.compact) :: compactFields rest

end

/-! ## Indented -/

/-- The blanks in front of a line at a nesting depth. -/
def margin (depth : Nat) : String := "".pushn ' ' (2 * depth)

mutual

/-- The text of a value at a nesting depth, one item or field a line; an empty container stays on its line. -/
def indented (depth : Nat) : Json → String
  | .null => "null"
  | .bool b => if b then "true" else "false"
  | .num n => n.render
  | .str s => quote s
  | .arr [] => "[]"
  | .arr (item :: rest) =>
    "[\n" ++ ",\n".intercalate (indentedItems (depth + 1) (item :: rest)) ++ "\n" ++ margin depth ++ "]"
  | .obj [] => "\x7b\x7d"
  | .obj (field :: rest) =>
    "\x7b\n" ++ ",\n".intercalate (indentedFields (depth + 1) (field :: rest)) ++ "\n" ++ margin depth ++ "\x7d"

def indentedItems (depth : Nat) : List Json → List String
  | [] => []
  | item :: rest => (margin depth ++ item.indented depth) :: indentedItems depth rest

def indentedFields (depth : Nat) : List (String × Json) → List String
  | [] => []
  | (key, value) :: rest =>
    (margin depth ++ quote key ++ ": " ++ value.indented depth) :: indentedFields depth rest

end

end Json

end DocQuery
