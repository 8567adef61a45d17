import DocQuery.Clause.Draft

/-!
# Boolean expressions

The conditions inside a nested group, reduced to a tree: clauses, and groups of at least two members under a
combinator.
-/

namespace DocQuery

inductive Expr where
  | clause (c : Clause)
  | group (combinator : Combinator) (members : List Expr)
deriving Repr

namespace Expr

/-- Markers in front of a group turn the single clause it holds: `NOT` toggles, `IN` is set. A group of several
members cannot be turned. -/
def inherit (markers : List Marker) (e : Expr) : Except BuildError Expr :=
  if markers.isEmpty then .ok e
  else
    let outer := (Marker.resolve markers).modifiers.markers
    match e with
    | .clause c =>
      let c :=
        if outer.contains .not then
          if c.markers.contains .not then { c with markers := c.markers.erase .not } else c.mark .not
        else c
      let c := if outer.contains .inList && !c.markers.contains .inList then c.mark .inList else c
      .ok (.clause c)
    | .group _ members => .error (.unsupported (.markersBeforeGroup outer members.length))

end Expr

end DocQuery
