import DocQuery.Grouping
import DocQuery.Query.Payload

/-!
# Queries in place

The operations that can fail, as the walk through a tree makes them: on the query itself, one statement after the
other, with the query as they leave it when they fail. `assign` takes a value of a clause, and `group` a group among
the conditions.
-/

namespace DocQuery.Query.Edit

open Grouping (Gathered isConjoined)

/-- Reads something, and then writes what it says. -/
def write {α : Type} (read : Except BuildError α) (set : Query → α → Query) : Edit Query Unit := do
  let a ← ofExcept read
  modify (set · a)

/-! ## Conditions and counting -/

def apply (family : Family) (modifier : Modifier) (c : Condition) : Edit Query Unit := do
  write (c.fragment (← get).dialect.like modifier) fun q fragment =>
    { q with filter := q.filter.add family c.key fragment }

/-- Counts rows, by an attribute if there is one. The kind and the attribute are written before the condition. -/
def count (counted : Option String) : Edit Query Unit := do
  modify (·.setKind .count)
  match counted with
  | none => pure ()
  | some attr =>
    modify fun q => { q with grouping := q.grouping ++ [attr] }
    match (← get).dialect.count with
    | .pipeline => pure ()
    | .existence => apply .root .plain ⟨attr, some "$exists", .bool true⟩

def aggregate (attributes : List String) : Edit Query Unit := do
  modify (·.setKind .aggregate)
  modify fun q => { q with stages := q.stages ++ [attributes] }

def distinct (attributes : List String) : Edit Query Unit :=
  match attributes with
  | [] => throw (.malformed (.noAttributes .distinct))
  | [attr] => do
    modify (·.setKind .distinct)
    modify ({ · with key := some attr })
  | _ => aggregate attributes

def groupBy (attributes : List String) : Edit Query Unit :=
  match attributes with
  | [] => throw (.malformed (.noAttributes .groupBy))
  | _ => aggregate attributes

/-- A value of a clause. The attributes of a counting clause are counted one after the other. -/
def assign (clause : Identifier) (value : Json) : Edit Query Unit :=
  match clause with
  | .select => write (Payload.names .select value) Query.select
  | .from_ => write (Payload.collection .from_ value) Query.setCollection
  | .into => write (Payload.collection .into value) Query.setCollection
  | .using_ => write (Payload.collection .using_ value) Query.setCollection
  | .distinct => do distinct (← ofExcept (Payload.names .distinct value))
  | .groupBy => do groupBy (← ofExcept (Payload.names .groupBy value))
  | .count => do
    let attributes ← ofExcept (Payload.counted value)
    if attributes.isEmpty then count none
    forM attributes fun attr => count (some attr)
  | .limit => write (Payload.rows .limit value) Query.setLimit
  | .skip => write (Payload.rows .skip value) Query.setSkip
  | .offset => write (Payload.rows .offset value) Query.setSkip
  | .delete => pure ()
  | clause => throw (.malformed (.unexpectedValue clause value))

/-! ## Groups -/

/-- The filter that an edit makes of a fresh query. What it has made of it when it fails is lost. -/
def filterOf (edit : Edit Query Unit) (dialect : Dialect) : Except BuildError Filter :=
  match edit.run (.empty dialect) with
  | .ok _ q => .ok q.filter
  | .error e _ => .error e

/-- Builds a filter in a query of its own, and puts it under a connective. -/
def graft (join : Combinator) (build : Edit Query Unit) : Edit Query Unit := do
  write (filterOf build (← get).dialect) fun q nested => q.graft join nested

mutual

/-- One member of a group under `combinator`. -/
def addMember (combinator : Combinator) : Expr → Edit Query Unit
  | .clause c =>
    let resolution := Marker.resolve c.markers
    let family := match resolution.combinator.getD combinator with
      | .and => .root
      | .or => .or
    apply family resolution.modifiers.resolved c.condition
  | .group inner members => graft combinator (addMembers inner members)

def addMembers (combinator : Combinator) : List Expr → Edit Query Unit
  | [] => pure ()
  | member :: rest => do
    addMember combinator member
    addMembers combinator rest

end

/-- A reduced expression under the combinator that joins it. -/
def addExpr (outer : Combinator) : Expr → Edit Query Unit
  | .clause c => apply outer.family (Marker.resolve c.markers).modifiers.resolved c.condition
  | .group combinator members => graft outer (addMembers combinator members)

/-- The end of a group. A nested one is handed to the group around it, and any other goes into the query. -/
def endGroup (nested : Bool) (pending : Draft) (outer : Option Combinator) (g : Gathered) :
    Edit Query (Option Expr) := do
  match ← ofExcept (g.close pending.pendingMarkers) with
  | none => return none
  | some e =>
    if nested then return some e
    addExpr (outer.getD .or) e
    return none

mutual

/-- One node of a group. The draft in front of a nested group is handed to it. -/
def readNode (conjoined : Bool) (g : Gathered) : Node → Edit Query Gathered
  | .token t => ofExcept (g.token conjoined t)
  | .group nodes => do
    let inner ← readNodes (isConjoined nodes) {} nodes
    let member ← endGroup true g.draft none inner
    return { g with draft := {}, members := g.members ++ member.toList }

def readNodes (conjoined : Bool) (g : Gathered) : List Node → Edit Query Gathered
  | [] => return g
  | node :: rest => do readNodes conjoined (← readNode conjoined g node) rest

end

/-- A group, with the draft in front of it and the combinator that joins it. If it is nested, the result is the
expression that it reduces to. -/
def group (nested : Bool) (pending : Draft) (outer : Option Combinator) (nodes : List Node) :
    Edit Query (Option Expr) := do
  endGroup nested pending outer (← readNodes (isConjoined nodes) {} nodes)

end DocQuery.Query.Edit
