import DocQuery.Proofs.Calls
import DocQuery.Proofs.LostKeys.Arrays

/-!
# Calls that fail

A call that fails leaves the query as it was, with one exception. The end of a sort clause puts its pairs into the order
one by one, and stops at the first that names no direction; the pairs before it stay (`query_of_error`). The other calls
edit the query in place as well, and fail before they write.

An array writes to the query once, when all of it has been reduced (`query_group`). What is nested in it is read with the
query at hand and does not touch it (`query_editGroup`), so a failure at any depth comes before the first write
(`error_of_not_accepted`).
-/

namespace DocQuery

/-! ## Arrays at any depth -/

namespace Group

mutual

theorem accepted_of_mem_node_arrays : ∀ {node : Node} {a : List Node}, (∀ b, node = .group b → Accepted b) →
    a ∈ node.arrays → Accepted a
  | .group b, a, hb, ha => by
    rcases List.mem_cons.mp ha with rfl | ha
    · exact hb a rfl
    · exact accepted_of_mem_arrays (fun d hd => (hb b rfl).of_mem hd) ha

/-- In an array that reduces, all arrays do. -/
theorem accepted_of_mem_arrays : ∀ {nodes a : List Node}, (∀ b, .group b ∈ nodes → Accepted b) →
    a ∈ Group.arrays nodes → Accepted a
  | node :: rest, a, hb, ha => by
    rcases List.mem_append.mp ha with ha | ha
    · exact accepted_of_mem_node_arrays (fun b hn => hb b (by simp [hn])) ha
    · exact accepted_of_mem_arrays (fun b hn => hb b (List.mem_cons_of_mem _ hn)) ha

end

end Group

namespace Cursor

variable {c : Cursor} {a : Attempt Cursor} {e : BuildError}

/-! ## Nodes and ends of clauses -/

theorem Within.query_eq (ha : Within c a) (he : a.error = some e) : a.state.query = c.query := by
  cases ha with
  | unmoved _ => rfl
  | waiting _ _ => rfl
  | emitted _ => cases he
  | paired _ => cases he
  | assigned _ => cases he

/-- The call ends a sort clause, and one of its pairs names no direction. -/
def StopsSorting (c : Cursor) (call : Call) : Prop :=
  call.endsClause = true ∧ ∃ before attr direction after, c.Unsorted before attr direction after

/-- The query with the pairs of a sort clause before the first that names no direction. -/
def SortedUpTo (c : Cursor) (q : Query) (e : BuildError) : Prop :=
  ∃ before attr direction after, c.Unsorted before attr direction after ∧ e = .sortDirection attr direction ∧
    q = { c.query with order := c.query.order.insertAll (Pairs.directions before) }

theorem Ending.query_cases (ha : Ending c a) (he : a.error = some e) :
    (a.state.query = c.query ∧ ¬ ∃ before attr direction after, c.Unsorted before attr direction after) ∨
      c.SortedUpTo a.state.query e := by
  cases ha with
  | idle _ => cases he
  | flushed _ => cases he
  | waiting _ hkey =>
    refine .inl ⟨rfl, ?_⟩
    rintro ⟨_, _, _, _, h⟩
    rw [h.pairs] at hkey
    cases hkey
  | unsorted h =>
    cases he
    exact .inr ⟨_, _, _, _, h, rfl, rfl⟩

/-- What a call that fails leaves of the query. -/
theorem query_of_error (c : Cursor) {call : Call} (h : (c.call call).error = some e) :
    (¬ c.StopsSorting call → (c.call call).state.query = c.query) ∧
      (c.StopsSorting call → c.SortedUpTo (c.call call).state.query e) := by
  have hending : ∀ {a : Attempt Cursor}, Ending c a → a.error = some e → call.endsClause = true →
      (¬ c.StopsSorting call → a.state.query = c.query) ∧ (c.StopsSorting call → c.SortedUpTo a.state.query e) := by
    intro a ha he hcall
    rcases ha.query_cases he with ⟨hq, hnot⟩ | hsorted
    · exact ⟨fun _ => hq, fun hstops => absurd hstops.2 hnot⟩
    · refine ⟨fun hnot => ?_, fun _ => hsorted⟩
      obtain ⟨before, attr, direction, after, hunsorted, _⟩ := hsorted
      exact absurd ⟨hcall, before, attr, direction, after, hunsorted⟩ hnot
  cases call with
  | endClause => exact hending (ending_endClause c) h rfl
  | step node =>
    simp only [Cursor.call] at h ⊢
    cases hn : node.identifier? with
    | none =>
      have hopen : ¬ c.StopsSorting (.step node) := fun hstops => by simp [StopsSorting, Call.endsClause, hn] at hstops
      exact ⟨fun _ => (within_step hn c).query_eq h, fun hstops => absurd hstops hopen⟩
    | some i =>
      rcases step_of_identifier hn c with ⟨_, _, hstep⟩ | ⟨_, hstep⟩
      · rw [hstep] at h ⊢
        exact hending (ending_endClause c) h (by simp [Call.endsClause, hn])
      · rw [hstep] at h
        cases h

/-! ## Arrays -/

/-- The one write of an array is that of the expression it reduces to. -/
theorem query_group (hs : c.scope = .conditions) (nodes : List Node) :
    (c.step (.group nodes)).state.query = c.query ∨
      ∃ reduced filter, Grouping.reduce c.modifiers.markers nodes = .ok (some reduced) ∧
        c.query.filter.addExpr c.query.dialect.like (c.combinator.getD .or) reduced = .ok filter ∧
        (c.step (.group nodes)).state.query = { c.query with filter } := by
  simp only [step, group_conditions hs]
  cases h : c.query.applyGroup c.modifiers.markers c.combinator nodes with
  | error e => exact .inl rfl
  | ok q =>
    obtain ⟨reduced, hr, h⟩ := bind_eq_ok.mp h
    cases reduced with
    | none =>
      cases h
      exact .inl rfl
    | some reduced =>
      obtain ⟨filter, hf, h⟩ := bind_eq_ok.mp h
      cases h
      exact .inr ⟨reduced, filter, hr, hf, rfl⟩

/-- An array fails with any of the arrays in it. -/
theorem error_of_not_accepted (hs : c.scope = .conditions) {nodes a : List Node} (ha : a ∈ nodes :: Group.arrays nodes)
    (hnot : ¬ Group.Accepted a) : ∃ e, (c.step (.group nodes)).error = some e := by
  simp only [step, group_conditions hs]
  cases h : c.query.applyGroup c.modifiers.markers c.combinator nodes with
  | error e => exact ⟨e, rfl⟩
  | ok q =>
    obtain ⟨reduced, hr, _⟩ := bind_eq_ok.mp h
    have hnodes : Group.Accepted nodes := ⟨_, reduced, hr⟩
    rcases List.mem_cons.mp ha with rfl | ha
    · exact absurd hnodes hnot
    · exact absurd (Group.accepted_of_mem_arrays (fun _ hb => hnodes.of_mem hb) ha) hnot

/-- A nested group leaves the query alone, and any other does if it fails. -/
theorem query_editGroup (pending : Draft) (outer : Option Combinator) (nodes : List Node) (q : Query) :
    ((Query.Edit.group true pending outer nodes).attempt q).state = q ∧
      ∀ e, ((Query.Edit.group false pending outer nodes).attempt q).error = some e →
        ((Query.Edit.group false pending outer nodes).attempt q).state = q := by
  constructor
  · rw [Query.Edit.group_nested]
    cases Grouping.reduce pending.pendingMarkers nodes <;> rfl
  · intro e h
    rw [Query.Edit.attempt_group] at h ⊢
    exact Attempt.state_ofExcept h

/-- **A failed call leaves the query untouched**, whatever calls came before it. Only the end of a sort clause that meets
a pair without a direction changes the order, and there exactly the pairs before the first such pair have been put into
it, one after the other. An array writes nothing but the expression that all of it reduces to, and nothing at all
if it fails or if any array in it does, at any depth. A nested array writes nothing, whether it fails or not. -/
theorem failed_calls_leave_query (c : Cursor) :
    (∀ call e, (c.call call).error = some e →
      (¬ c.StopsSorting call → (c.call call).state.query = c.query) ∧
      (c.StopsSorting call → ∃ before attr direction after, c.Unsorted before attr direction after ∧
        e = .sortDirection attr direction ∧
        (c.call call).state.query =
          { c.query with order := c.query.order.insertAll (Pairs.directions before) })) ∧
    (c.scope = .conditions → ∀ nodes,
      ((c.step (.group nodes)).state.query = c.query ∨
        ∃ reduced filter, Grouping.reduce c.modifiers.markers nodes = .ok (some reduced) ∧
          c.query.filter.addExpr c.query.dialect.like (c.combinator.getD .or) reduced = .ok filter ∧
          (c.step (.group nodes)).state.query = { c.query with filter }) ∧
      ∀ a ∈ nodes :: Group.arrays nodes, ¬ Group.Accepted a →
        ∃ e, (c.step (.group nodes)).error = some e ∧ (c.step (.group nodes)).state.query = c.query) ∧
    ∀ pending outer nodes q,
      ((Query.Edit.group true pending outer nodes).attempt q).state = q ∧
      ∀ e, ((Query.Edit.group false pending outer nodes).attempt q).error = some e →
        ((Query.Edit.group false pending outer nodes).attempt q).state = q := by
  refine ⟨fun call e h => c.query_of_error h, fun hs nodes => ⟨query_group hs nodes, fun a ha hnot => ?_⟩,
    query_editGroup⟩
  obtain ⟨e, he⟩ := error_of_not_accepted hs ha hnot
  exact ⟨e, he, (within_step rfl c).query_eq he⟩

example : (endClause {
    scope := .sortPairs, pairs := ⟨none, [("a", .int 1), ("b", .str "up"), ("c", .int 1)]⟩, query := {} }).state.query =
      { order := [("a", .ascending)] } := by
  decide +kernel

end Cursor

end DocQuery
