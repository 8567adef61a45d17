import DocQuery.Build
import DocQuery.Proofs.Dialects

/-!
# The two shapes of a document

The criteria document of a query holds all that its wire document does: `Document.toWire` makes the one from the other,
without the query (`toWire_toCriteria`). It goes by the function that the document names. A criteria document leaves out
what says nothing, and keeps the filter of an aggregation apart from its stages; both are restored.

`build_wire_eq`: whatever the query, building in the wire shape is building in the criteria shape and then rewriting
the document.
-/

namespace DocQuery

/-! ## Reading a document -/

namespace Document

/-- The value of a field, `absent` if there is none. -/
def fieldD (key : String) (absent : Json) : Json → Json
  | .obj fields => (Fields.find? key fields).getD absent
  | _ => absent

/-- The value of a field of a document that has it. -/
def field (key : String) (doc : Json) : Json := fieldD key .null doc

/-- The stages of an aggregation, after one that selects rows unless the criteria select all. -/
def stages (criteria : Json) : Json → List Json
  | .arr stages => if criteria = .obj [] then stages else .single "$match" criteria :: stages
  | _ => []

/-! ## Rewriting a document -/

/-- The wire document with the content of a criteria document. -/
def toWire (doc : Json) : Json :=
  let collection := field "collection" doc
  let criteria := field "criteria" doc
  let options := field "options" doc
  match field "fn" doc with
  | .str "find" => .obj [("find", collection), ("filter", criteria), ("sort", fieldD "sort" (.obj []) options),
      ("projection", field "fields" doc), ("skip", fieldD "skip" (.nat 0) options),
      ("limit", fieldD "limit" (.nat 0) options)]
  | .str "distinct" => .obj [("distinct", collection), ("key", field "val" options), ("query", criteria)]
  | .str "aggregate" => .obj [("aggregate", collection), ("pipeline", .arr (stages criteria (field "val" options)))]
  | .str "count" => .obj [("count", collection), ("query", criteria)]
  | .str "insert" => .obj [("insert", collection), ("documents", .arr [options])]
  | .str "update" => .obj [("update", collection),
      ("updates", .arr [.obj [("q", criteria), ("u", field "update" doc), ("multi", field "multi" options)]])]
  | .str "remove" => .obj [("delete", collection), ("deletes", .arr [.obj [("q", criteria), ("limit", .int 0)]])]
  | _ => .null

end Document

/-! ## Writing and rewriting -/

namespace Query

open Document

variable (q : Query)

/-- The options of a search hold its order, its skip and its limit, or leave them out if they say nothing. -/
theorem fieldD_findOptions :
    fieldD "sort" (.obj []) (.obj q.findOptions) = .obj q.orderObject ∧
      fieldD "skip" (.nat 0) (.obj q.findOptions) = .nat q.skip ∧
      fieldD "limit" (.nat 0) (.obj q.findOptions) = .nat q.limit := by
  have horder : q.order.isEmpty = true → q.orderObject = [] := by
    intro h
    simp [orderObject, List.isEmpty_iff.mp h]
  unfold findOptions
  cases hs : q.order.isEmpty <;> by_cases hl : q.limit = 0 <;> by_cases hk : q.skip = 0 <;>
    simp_all [fieldD, Fields.find?]

/-- The stages of an aggregation on the rows that match its filter. -/
theorem stages_eq_matched (stages : List Json) : Document.stages (.obj q.filter) (.arr stages) = q.matched stages := by
  unfold Document.stages matched
  cases q.filter with
  | nil => rfl
  | cons entry rest => rfl

/-- A search is restored from its five fields and its options. -/
theorem toWire_find : Document.toWire (q.criteriaDocument "find" (.obj q.findOptions)) =
    .obj [("find", .str q.collection), ("filter", .obj q.filter), ("sort", .obj q.orderObject),
      ("projection", .obj q.projectionObject), ("skip", .nat q.skip), ("limit", .nat q.limit)] := by
  obtain ⟨hsort, hskip, hlimit⟩ := q.fieldD_findOptions
  rw [← hsort, ← hskip, ← hlimit]
  rfl

/-- An aggregation gets its filter back as the first of its stages. -/
theorem toWire_aggregate (stages : List Json) :
    Document.toWire (q.criteriaDocument "aggregate" (.single "val" (.arr stages))) =
      .obj [("aggregate", .str q.collection), ("pipeline", .arr (q.matched stages))] := by
  rw [← stages_eq_matched]
  rfl

/-- **The criteria document holds all of the wire document.** -/
theorem toWire_toCriteria : Document.toWire q.toCriteria = q.toWire := by
  unfold toCriteria Query.toWire
  cases q.kind with
  | find => exact q.toWire_find
  | aggregate => exact q.toWire_aggregate q.pipeline
  | count =>
    cases q.dialect.count with
    | pipeline => exact q.toWire_aggregate [q.countStage]
    | existence => rfl
  | distinct => rfl
  | insert => rfl
  | update => rfl
  | remove => rfl

end Query

/-- **The two shapes carry the same query.** One function, of the criteria document alone, makes the wire document of
every query from its criteria document, with the keys in their order. So building a tree in the wire shape is building
it in the criteria shape and rewriting the document, and either fails with the error of the other. -/
theorem build_wire_eq :
    (∀ q : Query, Document.toWire q.toCriteria = q.toWire) ∧
      ∀ (dialect : Dialect) (tree : Tree), build { dialect with shape := .wire } tree =
        (build { dialect with shape := .criteria } tree).map Document.toWire := by
  refine ⟨Query.toWire_toCriteria, ?_⟩
  intro dialect tree
  unfold build
  rw [compile_reshape dialect .wire, compile_reshape dialect .criteria]
  cases compile dialect tree with
  | error e => rfl
  | ok q => exact congrArg Except.ok q.toWire_toCriteria.symm

end DocQuery
