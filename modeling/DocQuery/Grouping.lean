import DocQuery.Query.Basic

/-!
# Nested groups

A group among the conditions of a filter is reduced to an expression before anything is emitted. A value completes a
clause, and a nested group is a member of the group around it; markers in front of a nested group apply to what it
reduces to. A group with one member is that member, and an empty one is nothing.
-/

namespace DocQuery

/-- The payload of a token that has to be a string. -/
def Token.string (t : Token) : Except BuildError String :=
  match t.value with
  | .str s => .ok s
  | found => .error (.malformed (.payload t.kind found))

namespace Grouping

def isValue : Node → Bool
  | .token t => t.kind == .value
  | .group _ => false

def isGroup : Node → Bool
  | .token _ => false
  | .group _ => true

/-- The clauses of a group hold together if it has two values, or a value and a nested group. -/
def isConjoined (nodes : List Node) : Bool :=
  let values := nodes.countP isValue
  decide (1 < values) || (decide (0 < values) && nodes.any isGroup)

/-- What has been read of a group: the clause in the making, the last combinator, and the complete members. -/
structure Gathered where
  draft : Draft := {}
  combinator : Option Combinator := none
  members : List Expr := []

namespace Gathered

/-- A condition word. `NOT` starts a new clause, `IN` marks the current one, and an unknown word says nothing. -/
def condition (g : Gathered) (word : String) : Gathered :=
  match Marker.ofCondition? word with
  | some .not => { g with draft := .withMarkers [.not] }
  | some .inList => { g with draft := g.draft.mark .inList }
  | _ => { g with combinator := (Combinator.ofCondition? word).or g.combinator }

def token (conjoined : Bool) (g : Gathered) (t : Token) : Except BuildError Gathered :=
  match t.kind with
  | .key => do return { g with draft := g.draft.setKey (← t.string) }
  | .operator => do return { g with draft := ← g.draft.setOperator (← t.string) }
  | .value => do
    let (clause, draft) ← g.draft.complete t.value
    let clause := if conjoined then clause.mark .and else clause
    return { g with draft, members := g.members ++ [.clause clause] }
  | .condition => do return g.condition (← t.string)
  | .identifier => do
    let name ← t.string
    let identifier := Identifier.ofName name
    if identifier.isJoin then .error (.unsupported (.joinInGroup identifier))
    else .error (.malformed (.identifierInGroup name))

/-- The expression of a group that ends, turned by the markers in front of it. -/
def close (g : Gathered) (inherited : List Marker) : Except BuildError (Option Expr) :=
  match g.members with
  | [] => .ok none
  | [member] => do return some (← member.inherit inherited)
  | members => do return some (← (Expr.group (g.combinator.getD .or) members).inherit inherited)

end Gathered

mutual

/-- One node of a group. The markers that wait in front of a nested group belong to it. -/
def gatherNode (conjoined : Bool) (g : Gathered) : Node → Except BuildError Gathered
  | .token t => g.token conjoined t
  | .group nodes => do
    let inner ← gather (isConjoined nodes) {} nodes
    let member ← inner.close g.draft.pendingMarkers
    return { g with draft := {}, members := g.members ++ member.toList }

def gather (conjoined : Bool) (g : Gathered) : List Node → Except BuildError Gathered
  | [] => .ok g
  | node :: rest => do gather conjoined (← gatherNode conjoined g node) rest

end

/-- The expression of a group, if it says anything. -/
def reduce (inherited : List Marker) (nodes : List Node) : Except BuildError (Option Expr) := do
  (← gather (isConjoined nodes) {} nodes).close inherited

end Grouping

/-- A group among the conditions, joined by `outer`, or by `OR` if no combinator was read. -/
def Query.applyGroup (q : Query) (inherited : List Marker) (outer : Option Combinator) (nodes : List Node) :
    Except BuildError Query := do
  match ← Grouping.reduce inherited nodes with
  | none => return q
  | some e => q.applyExpr (outer.getD .or) e

end DocQuery
