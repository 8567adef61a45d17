import DocQuery.Query.Basic

/-!
# Query documents

A query is written as one of two documents. The wire shape is a command, whose first key names the statement and
holds the collection; the criteria shape has the same five fields for nearly every statement.
-/

namespace DocQuery

/-- The attribute as a reference to its value. -/
def reference (attr : String) : Json := .str ("$" ++ attr)

/-- What rows are grouped by: everything together, one attribute, or several. -/
def groupId : List String → Json
  | [] => .null
  | [attr] => reference attr
  | attributes => .obj (Fields.ofList (attributes.map fun a => (a, reference a)))

namespace Query

def projectionObject (q : Query) : Object := Fields.ofList (q.projection.map fun field => (field, .int 1))

def orderObject (q : Query) : Object := q.order.map fun (attr, d) => (attr, d.toJson)

/-- The stages of an aggregation. -/
def pipeline (q : Query) : List Json :=
  q.stages.map fun attributes => .single "$group" (.single "_id" (groupId attributes))

/-- The stage that counts the rows of each group. -/
def countStage (q : Query) : Json :=
  .single "$group" (.obj [("_id", groupId q.grouping), ("count", .single "$sum" (.int 1))])

/-- Stages on the rows that match the filter. An empty filter needs no stage. -/
def matched (q : Query) (stages : List Json) : List Json :=
  if q.filter.isEmpty then stages else .single "$match" (.obj q.filter) :: stages

/-- The values to set. -/
def assignments (q : Query) : Json := .single "$set" (.obj q.values)

def keyJson (q : Query) : Json := match q.key with
  | some key => .str key
  | none => .null

/-! ## Wire shape -/

def toWire (q : Query) : Json :=
  let collection := Json.str q.collection
  let filter := Json.obj q.filter
  match q.kind with
  | .find => .obj [("find", collection), ("filter", filter), ("sort", .obj q.orderObject),
      ("projection", .obj q.projectionObject), ("skip", .nat q.skip), ("limit", .nat q.limit)]
  | .distinct => .obj [("distinct", collection), ("key", q.keyJson), ("query", filter)]
  | .aggregate => .obj [("aggregate", collection), ("pipeline", .arr (q.matched q.pipeline))]
  | .count =>
    match q.dialect.count with
    | .pipeline => .obj [("aggregate", collection), ("pipeline", .arr (q.matched [q.countStage]))]
    | .existence => .obj [("count", collection), ("query", filter)]
  | .insert => .obj [("insert", collection), ("documents", .arr [.obj q.values])]
  | .update => .obj [("update", collection),
      ("updates", .arr [.obj [("q", filter), ("u", q.assignments), ("multi", .bool true)]])]
  | .remove => .obj [("delete", collection), ("deletes", .arr [.obj [("q", filter), ("limit", .int 0)]])]

/-! ## Criteria shape -/

/-- Sort, limit and skip, each only if it says something. -/
def findOptions (q : Query) : Object :=
  (if q.order.isEmpty then [] else [("sort", Json.obj q.orderObject)])
    ++ (if q.limit = 0 then [] else [("limit", .nat q.limit)])
    ++ (if q.skip = 0 then [] else [("skip", .nat q.skip)])

/-- The five fields that most statements have. -/
def criteriaDocument (q : Query) (function : String) (options : Json) : Json :=
  .obj [("collection", .str q.collection), ("fn", .str function), ("criteria", .obj q.filter),
    ("fields", .obj q.projectionObject), ("options", options)]

def toCriteria (q : Query) : Json :=
  match q.kind with
  | .find => q.criteriaDocument "find" (.obj q.findOptions)
  | .distinct => q.criteriaDocument "distinct" (.single "val" q.keyJson)
  | .aggregate => q.criteriaDocument "aggregate" (.single "val" (.arr q.pipeline))
  | .count =>
    match q.dialect.count with
    | .pipeline => q.criteriaDocument "aggregate" (.single "val" (.arr [q.countStage]))
    | .existence => q.criteriaDocument "count" (.obj [])
  | .insert => .obj [("collection", .str q.collection), ("fn", .str "insert"), ("criteria", .obj []),
      ("fields", .obj []), ("options", .obj q.values)]
  | .update => .obj [("collection", .str q.collection), ("fn", .str "update"), ("criteria", .obj q.filter),
      ("update", q.assignments), ("options", .single "multi" (.bool true))]
  | .remove => .obj [("collection", .str q.collection), ("fn", .str "remove"), ("criteria", .obj q.filter),
      ("options", .obj [])]

/-- The document in the shape of the dialect. -/
def toDocument (q : Query) : Json :=
  match q.dialect.shape with
  | .wire => q.toWire
  | .criteria => q.toCriteria

end Query

end DocQuery
