import DocQuery.Json.Printer

/-!
# Token trees

A query arrives as a tree: groups of nodes, where a node is a token or a group inside the group. Nesting stands for
the boolean structure of conditions and for nothing else.
-/

namespace DocQuery

inductive TokenKind where
  | identifier
  | key
  | operator
  | value
  | condition
deriving DecidableEq, Repr

def TokenKind.name : TokenKind → String
  | .identifier => "IDENTIFIER"
  | .key => "KEY"
  | .operator => "OPERATOR"
  | .value => "VALUE"
  | .condition => "CONDITION"

structure Token where
  kind : TokenKind
  value : Json
deriving DecidableEq, Repr

/-- The kind of a token, and its payload in parentheses. -/
def Token.text (t : Token) : String := t.kind.name ++ "(" ++ t.value.compact ++ ")"

inductive Node where
  | token (t : Token)
  | group (nodes : List Node)
deriving Repr

abbrev Group := List Node

structure Tree where
  groups : List Group := []
deriving Repr, Inhabited

/-! ## JSON form -/

def Token.toJson (t : Token) : Json := .obj [("type", .str t.kind.name), ("value", t.value)]

mutual

def Node.toJson : Node → Json
  | .token t => t.toJson
  | .group nodes => .arr (Node.listToJson nodes)

def Node.listToJson : List Node → List Json
  | [] => []
  | node :: rest => node.toJson :: Node.listToJson rest

end

def Tree.toJson (t : Tree) : Json := .arr (t.groups.map fun g => .arr (Node.listToJson g))

/-! ## Payloads -/

mutual

/-- The node with `f` applied to the payload of every token. -/
def Node.mapPayload (f : Json → Json) : Node → Node
  | .token t => .token { t with value := f t.value }
  | .group nodes => .group (Node.mapPayloads f nodes)

def Node.mapPayloads (f : Json → Json) : List Node → List Node
  | [] => []
  | node :: rest => node.mapPayload f :: Node.mapPayloads f rest

end

def Tree.mapPayload (f : Json → Json) (t : Tree) : Tree := ⟨t.groups.map (Node.mapPayloads f)⟩

end DocQuery
