import DocQuery.Filter.Basic

/-!
# Queries

A query gathers what the clauses of a tree say, in the order in which they say it. Each operation states one thing;
a later statement overrides an earlier one where only one can hold, and adds to it where both can. An operation that
can fail gives the query after it or an error; `Query.Edit` makes the same operations on a query in place.
-/

namespace DocQuery

inductive StatementKind where
  | find
  | count
  | distinct
  | aggregate
  | insert
  | update
  | remove
deriving DecidableEq, Repr

def StatementKind.name : StatementKind → String
  | .find => "find"
  | .count => "count"
  | .distinct => "distinct"
  | .aggregate => "aggregate"
  | .insert => "insert"
  | .update => "update"
  | .remove => "remove"

/-! ## Sort directions -/

inductive Direction where
  | ascending
  | descending
deriving DecidableEq, Repr

namespace Direction

def toInt : Direction → Int
  | .ascending => 1
  | .descending => -1

def toJson (d : Direction) : Json := .int d.toInt

/-- A direction is a number or a word, in any case of its letters. -/
def ofJson? : Json → Option Direction
  | .num (.int n) => if n = 1 then some .ascending else if n = -1 then some .descending else none
  | .str s =>
    match s.toLower with
    | "asc" => some .ascending
    | "1" => some .ascending
    | "desc" => some .descending
    | "-1" => some .descending
    | _ => none
  | _ => none

/-- The direction given for an attribute. -/
def read (attr : String) (value : Json) : Except BuildError Direction :=
  match ofJson? value with
  | some d => .ok d
  | none => .error (.sortDirection attr value)

end Direction

/-! ## The query -/

/-- What has been said so far. `grouping` holds the counted attributes, and `stages` the attributes of each
aggregation stage; a limit of zero is no limit. -/
structure Query where
  dialect : Dialect := {}
  stated : Option StatementKind := none
  collection : String := ""
  filter : Filter := []
  projection : List String := []
  order : Fields Direction := []
  skip : Nat := 0
  limit : Nat := 0
  values : Object := []
  key : Option String := none
  grouping : List String := []
  stages : List (List String) := []
deriving DecidableEq, Repr, Inhabited

namespace Query

def empty (dialect : Dialect) : Query := { dialect }

/-- The kind of statement, a search if nothing else was asked for. -/
def kind (q : Query) : StatementKind := q.stated.getD .find

def setKind (q : Query) (kind : StatementKind) : Query := { q with stated := some kind }

/-- Appends a name that is not in the list yet; a star stands for every attribute and is left out. -/
def addField (fields : List String) (field : String) : List String :=
  if field = "*" ∨ field ∈ fields then fields else fields ++ [field]

/-- Projects fields. This makes the statement a search unless it is something else already. -/
def select (q : Query) (fields : List String) : Query :=
  { q with stated := q.stated.or (some .find), projection := fields.foldl addField q.projection }

def setCollection (q : Query) (collection : String) : Query := { q with collection }

def setLimit (q : Query) (limit : Nat) : Query := { q with limit }

def setSkip (q : Query) (skip : Nat) : Query := { q with skip }

def delete (q : Query) : Query := q.setKind .remove

/-- Merges values into the document to insert. -/
def insert (q : Query) (values : Object) : Query :=
  { q with stated := some .insert, values := q.values.merge values }

/-- Merges values into the document to set. -/
def update (q : Query) (values : Object) : Query :=
  { q with stated := some .update, values := q.values.merge values }

/-- Sorts by an attribute. A second direction for it replaces the first. -/
def sort (q : Query) (attr : String) (direction : Json) : Except BuildError Query := do
  let d ← Direction.read attr direction
  return { q with order := q.order.insert attr d }

/-! ## Counting and grouping -/

/-- Counts rows. -/
def countRows (q : Query) : Query := q.setKind .count

/-- Counts rows by an attribute. If counting means that it exists, that is a condition too. -/
def countBy (q : Query) (attr : String) : Query :=
  let q := { q.setKind .count with grouping := q.grouping ++ [attr] }
  match q.dialect.count with
  | .pipeline => q
  | .existence => { q with filter := q.filter.add .root attr (.single "$exists" (.bool true)) }

/-- The distinct values of one attribute are a statement of their own; those of several are an aggregation. -/
def distinct (q : Query) (attributes : List String) : Except BuildError Query :=
  match attributes with
  | [] => .error (.malformed (.noAttributes .distinct))
  | [attr] => .ok { q.setKind .distinct with key := some attr }
  | _ => .ok { q.setKind .aggregate with stages := q.stages ++ [attributes] }

def groupBy (q : Query) (attributes : List String) : Except BuildError Query :=
  match attributes with
  | [] => .error (.malformed (.noAttributes .groupBy))
  | _ => .ok { q.setKind .aggregate with stages := q.stages ++ [attributes] }

/-! ## Conditions -/

/-- A condition under a modifier, in one of the three places of the filter. -/
def apply (q : Query) (family : Family) (modifier : Modifier) (c : Condition) : Except BuildError Query := do
  return { q with filter := ← q.filter.apply q.dialect.like family modifier c }

/-- A whole filter under a connective. -/
def graft (q : Query) (c : Combinator) (nested : Filter) : Query := { q with filter := q.filter.graft c nested }

/-- A reduced expression under the combinator that joins it. -/
def applyExpr (q : Query) (outer : Combinator) (e : Expr) : Except BuildError Query := do
  return { q with filter := ← q.filter.addExpr q.dialect.like outer e }

end Query

end DocQuery
