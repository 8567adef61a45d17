import DocQuery.Clause.Expr
import DocQuery.Filter.Fragment
import DocQuery.Json.Merge

/-!
# Filters

A filter is an object: its entries hold together, and the entries `$and` and `$or` hold lists of further filters.
Conditions are added one at a time. At the root, operators on the same key share one entry as long as they differ;
a condition that would overwrite an entry goes under `$and` instead.
-/

namespace DocQuery

abbrev Filter := Object

/-- A key that names an operator, and not an attribute. -/
def isOperatorName (key : String) : Bool := key.toList.head? == some '$'

/-- An object in which every key names an operator, and there is at least one. -/
def Object.isOperators (o : Object) : Bool := !o.isEmpty && o.keys.all isOperatorName

namespace Filter

/-- Appends an entry to a connective. A connective that is not a list gives way to a list of that entry. -/
def push (f : Filter) (c : Combinator) (entry : Json) : Filter :=
  match f.find? c.operator with
  | some (.arr entries) => f.insert c.operator (.arr (entries ++ [entry]))
  | _ => f.insert c.operator (.arr [entry])

/-- Whether two objects hold operators, and none in common. -/
def areDisjoint (old new : Object) : Bool :=
  old.isOperators && new.isOperators && !new.keys.any (old.contains ·)

/-- The entry with the operators of an incoming fragment, if they can share it. -/
def shared? : Json → Json → Option Json
  | .obj old, .obj new => if areDisjoint old new then some (.obj (Object.merge old new)) else none
  | _, _ => none

/-- A condition among the entries of the filter. -/
def conjoin (f : Filter) (key : String) (fragment : Json) : Filter :=
  match f.find? key with
  | none => f.insert key fragment
  | some existing =>
    match shared? existing fragment with
    | some entry => f.insert key entry
    | none => f.push .and (.single key fragment)

/-- A condition in one of the three places. -/
def add (f : Filter) (family : Family) (key : String) (fragment : Json) : Filter :=
  match family with
  | .root => f.conjoin key fragment
  | .or => f.push .or (.single key fragment)
  | .and => f.push .and (.single key fragment)

/-- A whole filter under a connective. An empty one says nothing and is left out. -/
def graft (f : Filter) (c : Combinator) (nested : Filter) : Filter :=
  if nested.isEmpty then f else f.push c (.obj nested)

/-- The fragment of a condition, added in one of the three places. -/
def apply (style : LikeStyle) (f : Filter) (family : Family) (modifier : Modifier) (c : Condition) :
    Except BuildError Filter :=
  (c.fragment style modifier).map (f.add family c.key)

/-! ## Expressions -/

/-- A clause of a group. One that is marked with `AND` goes among the entries, whatever the group's combinator. -/
def applyMember (style : LikeStyle) (combinator : Combinator) (f : Filter) (c : Clause) : Except BuildError Filter :=
  let resolution := Marker.resolve c.markers
  let family := match resolution.combinator.getD combinator with
    | .and => .root
    | .or => .or
  f.apply style family resolution.modifiers.resolved c.condition

mutual

/-- One member of a group under `combinator`, added to the filter of the group. -/
def addMember (style : LikeStyle) (combinator : Combinator) (f : Filter) : Expr → Except BuildError Filter
  | .clause c => f.applyMember style combinator c
  | .group inner members => do return f.graft combinator (← addMembers style inner [] members)

def addMembers (style : LikeStyle) (combinator : Combinator) (f : Filter) : List Expr → Except BuildError Filter
  | [] => .ok f
  | member :: rest => do addMembers style combinator (← addMember style combinator f member) rest

end

/-- A reduced expression under the combinator that joins it to the filter. A single clause goes there by itself. -/
def addExpr (style : LikeStyle) (outer : Combinator) (f : Filter) : Expr → Except BuildError Filter
  | .clause c => f.apply style outer.family (Marker.resolve c.markers).modifiers.resolved c.condition
  | .group combinator members => do return f.graft outer (← addMembers style combinator [] members)

end Filter

end DocQuery
