import DocQuery.Query.Basic

/-!
# Payloads

What the payload of a clause says about the query: `Query.assign` for clauses whose values are used one by one, and
`Query.flush` for those that collect pairs first.
-/

namespace DocQuery

/-! ## Single values -/

namespace Payload

/-- The items of a list of names, up to the first that is not a string. -/
def nameItems (clause : Identifier) : List Json → Except BuildError (List String)
  | [] => .ok []
  | .str name :: rest => do return name :: (← nameItems clause rest)
  | found :: _ => .error (.malformed (.attributeName clause found))

/-- A name, or a list of names. -/
def names (clause : Identifier) : Json → Except BuildError (List String)
  | .str name => .ok [name]
  | .arr items => nameItems clause items
  | found => .error (.malformed (.attributeList clause found))

/-- A name, or an object that has one as its table. -/
def collection (clause : Identifier) (value : Json) : Except BuildError String :=
  let name := match value with
    | .str name => some name
    | .obj fields => (Fields.find? "table" fields).bind Json.string?
    | _ => none
  match name with
  | some name => .ok name
  | none => .error (.malformed (.collectionName clause value))

def rows (clause : Identifier) (value : Json) : Except BuildError Nat :=
  match value.nat? with
  | some n => .ok n
  | none => .error (.malformed (.rowCount clause value))

/-- The attributes to count by. `true` and a lone star count rows. -/
def counted : Json → Except BuildError (List String)
  | .bool true => .ok []
  | .str "*" => .ok []
  | value => names .count value

end Payload

/-- A value of a clause. The values of a delete clause say nothing. -/
def Query.assign (q : Query) (clause : Identifier) (value : Json) : Except BuildError Query :=
  match clause with
  | .select => do return q.select (← Payload.names .select value)
  | .from_ => do return q.setCollection (← Payload.collection .from_ value)
  | .into => do return q.setCollection (← Payload.collection .into value)
  | .using_ => do return q.setCollection (← Payload.collection .using_ value)
  | .distinct => do q.distinct (← Payload.names .distinct value)
  | .groupBy => do q.groupBy (← Payload.names .groupBy value)
  | .count => do return (← Payload.counted value).foldl Query.countBy q.countRows
  | .limit => do return q.setLimit (← Payload.rows .limit value)
  | .skip => do return q.setSkip (← Payload.rows .skip value)
  | .offset => do return q.setSkip (← Payload.rows .offset value)
  | .delete => .ok q
  | clause => .error (.malformed (.unexpectedValue clause value))

/-! ## Pairs -/

/-- Pairs in the making: the complete ones, and a key that waits for its value. -/
structure Pairs where
  key : Option String := none
  complete : List (String × Json) := []
deriving DecidableEq, Repr, Inhabited

namespace Pairs

/-- A key that waited for its value gives way to the new one. -/
def setKey (p : Pairs) (key : String) : Pairs := { p with key := some key }

def setValue (p : Pairs) (value : Json) : Except BuildError Pairs :=
  match p.key with
  | some key => .ok { key := none, complete := p.complete ++ [(key, value)] }
  | none => .error (.malformed (.valueWithoutKey value))

def isEmpty (p : Pairs) : Bool := p.key.isNone && p.complete.isEmpty

/-- The pairs of a clause that ends. Nothing is left of them afterwards, not even after an error. -/
def close (p : Pairs) : Except BuildError (List (String × Json)) :=
  match p.key with
  | some key => .error (.malformed (.keyWithoutValue key))
  | none => .ok p.complete

/-- The document with the given fields. A later field on the same key wins; objects merge. -/
def document (pairs : List (String × Json)) : Object := pairs.foldl (fun o p => o.merge [p]) []

end Pairs

namespace Query

/-- Sorts by each pair in turn, up to the first whose direction is none. -/
def sortAll (q : Query) : List (String × Json) → Attempt Query
  | [] => ⟨q, none⟩
  | (attr, direction) :: rest =>
    match q.sort attr direction with
    | .ok q => q.sortAll rest
    | .error e => ⟨q, some e⟩

/-- The pairs of a clause. -/
def flush (q : Query) (clause : Identifier) (pairs : List (String × Json)) : Attempt Query :=
  match clause with
  | .orderBy => q.sortAll pairs
  | .insert => ⟨q.insert (Pairs.document pairs), none⟩
  | .update => ⟨q.update (Pairs.document pairs), none⟩
  | clause => ⟨q, some (.malformed (.unexpectedPairs clause))⟩

end Query

end DocQuery
