import DocQuery.Identifier

/-!
# Scopes

The scope of a token is the clause it stands in, as far as that decides how the token is read.
-/

namespace DocQuery

inductive Scope where
  /-- No identifier has been read yet. -/
  | scanning
  /-- Conditions of a filter. -/
  | conditions
  /-- Pairs of keys and values, up to the end of the clause. -/
  | insertPairs
  | updatePairs
  | sortPairs
  /-- Values, each used at once. -/
  | values (clause : Identifier)
  /-- Anything, without effect. -/
  | ignored (clause : Identifier)
deriving DecidableEq, Repr

namespace Scope

/-- The scope that an identifier opens. -/
def ofIdentifier : Identifier → Scope
  | .where_ => .conditions
  | .insert => .insertPairs
  | .update => .updatePairs
  | .orderBy => .sortPairs
  | .join kind => .ignored (.join kind)
  | .other name => .ignored (.other name)
  | clause => .values clause

/-- The clause whose pairs are collected. -/
def pairClause? : Scope → Option Identifier
  | .insertPairs => some .insert
  | .updatePairs => some .update
  | .sortPairs => some .orderBy
  | _ => none

/-- The scope as messages show it. -/
def title : Scope → String
  | .scanning => "Scanning"
  | .conditions => "InWhere"
  | .insertPairs => "InInsert"
  | .updatePairs => "InUpdate"
  | .sortPairs => "InOrderBy"
  | .values clause => "InValue(" ++ clause.title ++ ")"
  | .ignored clause => "Ignoring(" ++ clause.title ++ ")"

end Scope

end DocQuery
