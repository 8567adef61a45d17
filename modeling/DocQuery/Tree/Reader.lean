import DocQuery.Json.Source
import DocQuery.ReadError
import DocQuery.Token

/-!
# Reading trees

A tree is an array of groups, and a group an array of nodes. A node is read as a group if all its items are nodes,
and as a token otherwise. A token is an object with a `type` and a `value`, or an array of these two.
-/

namespace DocQuery

namespace TokenKind

def ofName? : String → Option TokenKind
  | "IDENTIFIER" => some .identifier
  | "KEY" => some .key
  | "OPERATOR" => some .operator
  | "VALUE" => some .value
  | "CONDITION" => some .condition
  | _ => none

/-- The name of a kind, or an object with that name as its only key and nothing under it. -/
def ofJson? : Json → Option TokenKind
  | .str name => ofName? name
  | .obj [(name, .null)] => ofName? name
  | _ => none

end TokenKind

namespace Token

/-- The value of a key that occurs once. -/
def once? (key : String) (fields : List (String × Json)) : Option Json :=
  match fields.filter (·.1 == key) with
  | [(_, value)] => some value
  | _ => none

def ofFields? (fields : List (String × Json)) : Option Token := do
  let kind ← once? "type" fields
  let value ← once? "value" fields
  return ⟨← TokenKind.ofJson? kind, value⟩

def ofItems? : List Json → Option Token
  | [kind, value] => (TokenKind.ofJson? kind).map (⟨·, value⟩)
  | _ => none

end Token

namespace Node

mutual

def ofJson? : Json → Option Node
  | .arr items =>
    match listOfJson? items with
    | some nodes => some (.group nodes)
    | none => (Token.ofItems? items).map .token
  | .obj fields => (Token.ofFields? fields).map .token
  | .null => none
  | .bool _ => none
  | .num _ => none
  | .str _ => none

def listOfJson? : List Json → Option (List Node)
  | [] => some []
  | item :: rest => do return (← ofJson? item) :: (← listOfJson? rest)

end

end Node

def Group.ofJson : Json → Except ReadError Group
  | .arr items =>
    match Node.listOfJson? items with
    | some nodes => .ok nodes
    | none => .error .node
  | found => .error (.mismatch found "a sequence")

namespace Tree

def ofJson : Json → Except ReadError Tree
  | .arr items => do return ⟨← items.mapM Group.ofJson⟩
  | found => .error (.mismatch found "a sequence")

/-- The tree of a JSON text. A token may not repeat its `type` or its `value`, and a payload keeps each key once. -/
def ofText (text : String) : Except ReadError Tree :=
  match (Source.ofText? text).bind (·.toJson? Source.maxDepth) with
  | none => .error .text
  | some json => (ofJson json).map (·.mapPayload Json.collapse)

end Tree

end DocQuery
