import DocQuery.Dialect
import DocQuery.Json.Basic

/-!
# LIKE patterns

In a LIKE pattern `%` stands for any run of characters, and everything else for itself. The regular expression of a
pattern is searched in the whole subject, so it is anchored at each end at which the pattern has no `%`.
-/

namespace DocQuery.Like

/-- The parts of a pattern between its `%`. -/
def segments : List Char → List (List Char)
  | [] => [[]]
  | c :: rest =>
    match c == '%', segments rest with
    | true, parts => [] :: parts
    | false, [] => [[c]]
    | false, part :: parts => (c :: part) :: parts

/-- The characters that mean something else than themselves in a regular expression. -/
def isMeta (c : Char) : Bool := "\\.+*?()|[]\x7b\x7d^$#&-~".toList.contains c

/-- The regular expression of a text that stands for itself. -/
def escape (cs : List Char) : List Char := cs.flatMap fun c => if isMeta c then ['\\', c] else [c]

/-- The regular expression of a list of segments, with any run of characters between two of them. -/
def body : List (List Char) → List Char
  | [] => []
  | [part] => escape part
  | part :: rest => escape part ++ ['.', '*'] ++ body rest

/-- The regular expression of a LIKE pattern. -/
def patternChars (raw : List Char) : List Char :=
  let opens := raw.head? == some '%'
  let closes := raw.getLast? == some '%'
  let parts := segments raw
  let parts := if opens then parts.drop 1 else parts
  let parts := if closes then parts.dropLast else parts
  (if opens then [] else ['^']) ++ body parts ++ (if closes then [] else ['$'])

def pattern (raw : String) : String := String.ofList (patternChars raw.toList)

/-- The operand that matches a regular expression, in one of its two spellings. -/
def operand (style : LikeStyle) (regex : String) : Json :=
  match style with
  | .regex => .obj [("$regex", .str regex)]
  | .literal => .obj [("$regularExpression", .obj [("pattern", .str regex), ("options", .str "")])]

end DocQuery.Like
