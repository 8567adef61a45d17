/-!
# Identifiers

An identifier opens a clause: it says what the tokens after it mean. Names are recognised whatever the case of their
letters. Joins are recognised so that their clauses can be told from those of unknown names.
-/

namespace DocQuery

inductive JoinKind where
  | plain
  | inner
  | outer
  | cross
  | left
  | leftOuter
  | right
  | rightOuter
  | fullOuter
deriving DecidableEq, Repr

inductive Identifier where
  | select
  | from_
  | into
  | using_
  | where_
  | insert
  | update
  | delete
  | limit
  | skip
  | offset
  | orderBy
  | groupBy
  | count
  | distinct
  | join (kind : JoinKind)
  | other (name : String)
deriving DecidableEq, Repr

def JoinKind.name : JoinKind → String
  | .plain => "JOIN"
  | .inner => "INNERJOIN"
  | .outer => "OUTERJOIN"
  | .cross => "CROSSJOIN"
  | .left => "LEFTJOIN"
  | .leftOuter => "LEFTOUTERJOIN"
  | .right => "RIGHTJOIN"
  | .rightOuter => "RIGHTOUTERJOIN"
  | .fullOuter => "FULLOUTERJOIN"

namespace Identifier

/-- The name in capitals; an unknown name stays as it was written. -/
def name : Identifier → String
  | .select => "SELECT"
  | .from_ => "FROM"
  | .into => "INTO"
  | .using_ => "USING"
  | .where_ => "WHERE"
  | .insert => "INSERT"
  | .update => "UPDATE"
  | .delete => "DELETE"
  | .limit => "LIMIT"
  | .skip => "SKIP"
  | .offset => "OFFSET"
  | .orderBy => "ORDERBY"
  | .groupBy => "GROUPBY"
  | .count => "COUNT"
  | .distinct => "DISTINCT"
  | .join kind => kind.name
  | .other name => name

/-- The name as messages on the place of a token show it. -/
def title : Identifier → String
  | .select => "Select"
  | .from_ => "From"
  | .into => "Into"
  | .using_ => "Using"
  | .where_ => "Where"
  | .insert => "Insert"
  | .update => "Update"
  | .delete => "Delete"
  | .limit => "Limit"
  | .skip => "Skip"
  | .offset => "Offset"
  | .orderBy => "OrderBy"
  | .groupBy => "GroupBy"
  | .count => "Count"
  | .distinct => "Distinct"
  | .join kind => kind.name
  | .other name => name

/-- The identifier of a name, in any case of its ASCII letters. -/
def ofName (name : String) : Identifier :=
  match name.toUpper with
  | "SELECT" => .select
  | "FROM" => .from_
  | "INTO" => .into
  | "USING" => .using_
  | "WHERE" => .where_
  | "INSERT" => .insert
  | "UPDATE" => .update
  | "DELETE" => .delete
  | "LIMIT" => .limit
  | "SKIP" => .skip
  | "OFFSET" => .offset
  | "ORDERBY" => .orderBy
  | "GROUPBY" => .groupBy
  | "COUNT" => .count
  | "DISTINCT" => .distinct
  | "JOIN" => .join .plain
  | "INNERJOIN" => .join .inner
  | "OUTERJOIN" => .join .outer
  | "CROSSJOIN" => .join .cross
  | "LEFTJOIN" => .join .left
  | "LEFTOUTERJOIN" => .join .leftOuter
  | "RIGHTJOIN" => .join .right
  | "RIGHTOUTERJOIN" => .join .rightOuter
  | "FULLOUTERJOIN" => .join .fullOuter
  | _ => .other name

def isJoin : Identifier → Bool
  | .join _ => true
  | _ => false

end Identifier

end DocQuery
