import DocQuery.Json.Printer
import DocQuery.Text.Quoted

/-!
# Errors of reading

Why a JSON value, or a text, is not what was to be read from it.
-/

namespace DocQuery

inductive ReadError where
  /-- The text is not JSON. -/
  | text
  /-- The value is of another kind. -/
  | mismatch (found : Json) (expected : String)
  /-- Neither a token nor a group of nodes. -/
  | node
  | unknownName (found : String) (first second : String)
  /-- An object that names a choice has one key. -/
  | severalNames
  | repeatedField (key : String)
  | tooManyItems (count : Nat)
deriving DecidableEq, Repr

/-- A value as messages show what was found. -/
def Json.described : Json → String
  | .null => "null"
  | .bool b => "boolean `" ++ (if b then "true" else "false") ++ "`"
  | .num (.int n) => "integer `" ++ toString n ++ "`"
  | .num (.float x) => "floating point `" ++ (Number.float x).render ++ "`"
  | .str s => "string " ++ Text.quoted s
  | .arr _ => "sequence"
  | .obj _ => "map"

def ReadError.message : ReadError → String
  | .text => "not a JSON text"
  | .mismatch found expected => "invalid type: " ++ found.described ++ ", expected " ++ expected
  | .node => "data did not match any variant of untagged enum Node"
  | .unknownName found first second =>
    "unknown variant `" ++ found ++ "`, expected `" ++ first ++ "` or `" ++ second ++ "`"
  | .severalNames => "invalid value: map, expected map with a single key"
  | .repeatedField key => "duplicate field `" ++ key ++ "`"
  | .tooManyItems count => "invalid length " ++ toString count ++ ", expected fewer elements in array"

end DocQuery
