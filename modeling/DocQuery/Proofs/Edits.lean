import DocQuery.Cursor

/-!
# Edits of a query

An edit that fails may have written before it did. Those that the walk through a tree makes have not: on a query that
is edited in place, each leaves what the operation on queries gives, and the query itself if that gives an error
(`attempt_apply`, `attempt_assign`, `attempt_group`). They read first and write then, and reading leaves the query alone
(`attempt_read`). There are three places where this is not plain to see:

- A counted attribute is written before its condition, which cannot fail (`run_count`).
- A nested group is read with the query at hand, and nothing is written until the outermost one ends (`readNodes_eq`).
- The filter of a group is built member by member, in a query that is lost if one of them fails (`attempt_graft`).

The calls of a cursor are restated at the end in terms of the operations on queries and drafts.
-/

namespace DocQuery

@[simp] theorem Attempt.result_ofExcept {σ : Type} (before : σ) (x : Except BuildError σ) :
    (Attempt.ofExcept before x).result = x := by
  cases x <;> rfl

theorem Attempt.state_ofExcept {σ : Type} {before : σ} {x : Except BuildError σ} {e : BuildError}
    (h : (Attempt.ofExcept before x).error = some e) : (Attempt.ofExcept before x).state = before := by
  cases x with
  | ok after => cases h
  | error e => rfl

namespace Edit

variable {σ α β : Type}

theorem ofExcept_bind (x : Except BuildError α) (f : α → Except BuildError β) :
    (ofExcept (x >>= f) : Edit σ β) = (ofExcept x >>= fun a => ofExcept (f a)) := by
  cases x <;> rfl

/-- An edit that reads before it does anything else. If what comes then leaves the state as it was on failure, so does
all of it. -/
theorem attempt_read {x : Except BuildError α} {edit : α → Edit σ β} {after : α → Except BuildError σ} {s : σ}
    (h : ∀ a, (edit a).attempt s = .ofExcept s (after a)) :
    (ofExcept x >>= edit : Edit σ β).attempt s = .ofExcept s (x >>= after) := by
  cases x with
  | error e => rfl
  | ok a => exact h a

/-- If two edits are made one after the other, the second goes on with the state that the first leaves. -/
theorem result_attempt_bind (first : Edit σ Unit) (second : Edit σ α) (s : σ) :
    ((do first; second).attempt s).result = (first.attempt s).result >>= fun s => (second.attempt s).result := by
  unfold attempt
  rw [EStateM.run_bind]
  cases first.run s <;> rfl

theorem attempt_then_return (edit : Edit σ Unit) (a : α) (s : σ) :
    (do edit; return a : Edit σ α).attempt s = edit.attempt s := by
  unfold attempt
  rw [EStateM.run_bind]
  cases edit.run s <;> rfl

end Edit

namespace Query.Edit

open Grouping (Gathered isConjoined gather gatherNode)

theorem attempt_write {α : Type} (read : Except BuildError α) (set : Query → α → Query) (q : Query) :
    (write read set).attempt q = .ofExcept q (do return set q (← read)) :=
  Edit.attempt_read fun _ => rfl

theorem attempt_apply (family : Family) (modifier : Modifier) (c : Condition) (q : Query) :
    (apply family modifier c).attempt q = .ofExcept q (q.apply family modifier c) := by
  refine (attempt_write (c.fragment q.dialect.like modifier) _ q).trans ?_
  unfold Query.apply Filter.apply
  cases c.fragment q.dialect.like modifier <;> rfl

/-! ## Counting -/

/-- A condition that an attribute exists is no pattern. -/
theorem fragment_existence (style : LikeStyle) (attr : String) :
    Condition.fragment style .plain ⟨attr, some "$exists", .bool true⟩ = .ok (.single "$exists" (.bool true)) := by
  have hlike : Operator.isLike "$exists" = false := by decide +kernel
  simp [Condition.fragment, Condition.comparison, hlike, Operator.canonical]

theorem run_count (attr : String) (q : Query) : (count (some attr)).run q = .ok () (q.countBy attr) := by
  cases h : q.dialect.count with
  | pipeline => simp [count, countBy, setKind, h]
  | existence => simp [count, apply, write, countBy, setKind, h, fragment_existence, ofExcept]

theorem run_countAll (attributes : List String) (q : Query) :
    (forM attributes fun attr => count (some attr)).run q = .ok () (attributes.foldl countBy q) := by
  induction attributes generalizing q with
  | nil => rfl
  | cons attr rest ih =>
    rw [List.forM_cons, EStateM.run_bind, run_count]
    exact ih (q.countBy attr)

theorem attempt_distinct (attributes : List String) (q : Query) :
    (distinct attributes).attempt q = .ofExcept q (q.distinct attributes) := by
  rcases attributes with _ | ⟨attr, _ | ⟨_, _⟩⟩ <;> rfl

theorem attempt_groupBy (attributes : List String) (q : Query) :
    (groupBy attributes).attempt q = .ofExcept q (q.groupBy attributes) := by
  cases attributes <;> rfl

/-- Counting by an attribute says that rows are counted, too. -/
theorem attempt_countAll (attributes : List String) (q : Query) :
    Edit.attempt (do if attributes.isEmpty then count none
                     forM attributes fun attr => count (some attr)) q =
      ⟨attributes.foldl countBy q.countRows, none⟩ := by
  cases attributes with
  | nil => rfl
  | cons attr rest =>
    have hrun := run_countAll (attr :: rest) q
    simp only [List.isEmpty_cons, Bool.false_eq_true, ↓reduceIte]
    rw [Edit.attempt, hrun]
    rfl

theorem attempt_assign (clause : Identifier) (value : Json) (q : Query) :
    (assign clause value).attempt q = .ofExcept q (q.assign clause value) := by
  cases clause
  case select | from_ | into | using_ | limit | skip | offset => exact attempt_write _ _ q
  case distinct => exact Edit.attempt_read fun names => attempt_distinct names q
  case groupBy => exact Edit.attempt_read fun names => attempt_groupBy names q
  case count => exact Edit.attempt_read fun names => attempt_countAll names q
  all_goals rfl

/-! ## Groups -/

/-- Of what is built in a fresh query, only the filter is kept. -/
theorem attempt_graft {build : Edit Query Unit} {q : Query} {x : Except BuildError Filter}
    (h : (build.attempt (.empty q.dialect)).result = x.map ({ Query.empty q.dialect with filter := · }))
    (join : Combinator) : (graft join build).attempt q = .ofExcept q (do return q.graft join (← x)) := by
  have hresult : filterOf build q.dialect = (build.attempt (.empty q.dialect)).result.map Query.filter := by
    unfold filterOf Edit.attempt
    cases build.run (.empty q.dialect) <;> rfl
  have hfilter : filterOf build q.dialect = x := by
    rw [hresult, h]
    cases x <;> rfl
  rw [← hfilter]
  exact attempt_write (filterOf build q.dialect) _ q

mutual

theorem result_addMember (join : Combinator) : ∀ (e : Expr) (q : Query), ((addMember join e).attempt q).result =
    (Filter.addMember q.dialect.like join q.filter e).map ({ q with filter := · })
  | .clause c, q => by
    rw [addMember, attempt_apply, Attempt.result_ofExcept, Filter.addMember, Filter.applyMember]
    rfl
  | .group inner members, q => by
    rw [addMember, attempt_graft (result_addMembers inner members _), Attempt.result_ofExcept, Filter.addMember]
    change (Filter.addMembers q.dialect.like inner [] members >>= _) = _
    cases Filter.addMembers q.dialect.like inner [] members <;> rfl

theorem result_addMembers (join : Combinator) : ∀ (members : List Expr) (q : Query),
    ((addMembers join members).attempt q).result =
      (Filter.addMembers q.dialect.like join q.filter members).map ({ q with filter := · })
  | [], q => rfl
  | member :: rest, q => by
    rw [addMembers, Edit.result_attempt_bind, result_addMember join member, Filter.addMembers]
    cases Filter.addMember q.dialect.like join q.filter member with
    | error e => rfl
    | ok f => exact result_addMembers join rest { q with filter := f }

end

theorem attempt_addExpr (outer : Combinator) (e : Expr) (q : Query) :
    (addExpr outer e).attempt q = .ofExcept q (q.applyExpr outer e) := by
  cases e with
  | clause c => exact attempt_apply _ _ _ q
  | group inner members =>
    rw [addExpr, attempt_graft (result_addMembers inner members _), applyExpr, Filter.addExpr]
    change Attempt.ofExcept q (Filter.addMembers q.dialect.like inner [] members >>= _) = _
    cases Filter.addMembers q.dialect.like inner [] members <;> rfl

theorem endGroup_nested (pending : Draft) (outer : Option Combinator) (g : Gathered) :
    endGroup true pending outer g = ofExcept (g.close pending.pendingMarkers) := by
  unfold endGroup
  cases g.close pending.pendingMarkers with
  | error e => rfl
  | ok member => cases member <;> rfl

mutual

/-- Reading a node of a group does not touch the query. -/
theorem readNode_eq (conjoined : Bool) (g : Gathered) : ∀ node : Node,
    readNode conjoined g node = ofExcept (gatherNode conjoined g node)
  | .token t => by rw [readNode, gatherNode]
  | .group nodes => by
    rw [readNode, gatherNode, readNodes_eq _ _ nodes, Edit.ofExcept_bind]
    congr 1
    funext inner
    rw [endGroup_nested, Edit.ofExcept_bind]
    rfl

theorem readNodes_eq (conjoined : Bool) (g : Gathered) : ∀ nodes : List Node,
    readNodes conjoined g nodes = ofExcept (gather conjoined g nodes)
  | [] => by
    rw [readNodes, gather]
    rfl
  | node :: rest => by
    rw [readNodes, gather, readNode_eq conjoined g node, Edit.ofExcept_bind]
    congr 1
    funext g'
    exact readNodes_eq conjoined g' rest

end

/-- A nested group is reduced, and the query is left alone. -/
theorem group_nested (pending : Draft) (outer : Option Combinator) (nodes : List Node) :
    group true pending outer nodes = ofExcept (Grouping.reduce pending.pendingMarkers nodes) := by
  rw [group, readNodes_eq, Grouping.reduce, Edit.ofExcept_bind]
  congr 1
  funext g
  exact endGroup_nested pending outer g

/-- Any other group is reduced before the first write. -/
theorem attempt_group (pending : Draft) (outer : Option Combinator) (nodes : List Node) (q : Query) :
    (group false pending outer nodes).attempt q = .ofExcept q (q.applyGroup pending.pendingMarkers outer nodes) := by
  rw [group, readNodes_eq, applyGroup, Grouping.reduce, bind_assoc]
  refine Edit.attempt_read fun g => Edit.attempt_read fun member => ?_
  cases member with
  | none => rfl
  | some e =>
    have hadd := attempt_addExpr (outer.getD .or) e q
    exact (Edit.attempt_then_return (addExpr (outer.getD .or) e) none q).trans hadd

end Query.Edit

namespace Draft

variable {d d' : Draft} {value : Json} {clause : Clause} {e : BuildError}

theorem attempt_takeOperator (operator : String) (d : Draft) :
    (takeOperator operator).attempt d = .ofExcept d (d.setOperator operator) := by
  unfold setOperator
  cases h : d.isPending <;> simp [takeOperator, Edit.attempt, Attempt.ofExcept, h]

theorem run_takeValue_of_ok (h : d.complete value = .ok (clause, d')) : (takeValue value).run d = .ok clause d' := by
  obtain ⟨markers, key, operator, done⟩ := d
  cases key with
  | none => cases h
  | some key =>
    cases done with
    | true => cases h
    | false =>
      cases h
      rfl

/-- A value that does not complete a clause leaves the draft as it was. -/
theorem run_takeValue_of_error (h : d.complete value = .error e) : (takeValue value).run d = .error e d := by
  obtain ⟨markers, key, operator, done⟩ := d
  cases key with
  | none =>
    cases h
    rfl
  | some key =>
    cases done with
    | true =>
      cases h
      rfl
    | false => cases h

end Draft

/-! ## Calls of a cursor -/

namespace Cursor

variable {c : Cursor} {value : Json} {clause : Clause} {draft : Draft} {e : BuildError}

theorem conditionValue_of_error (h : c.draft.complete value = .error e) : c.conditionValue value = ⟨c, some e⟩ := by
  rw [conditionValue, Draft.run_takeValue_of_error h]

theorem conditionValue_of_ok (h : c.draft.complete value = .ok (clause, draft)) : c.conditionValue value =
    .ofExcept { c with draft, modifiers := {} } ((c.query.apply .root c.modifiers.resolved clause.condition).map
      ({ c with draft, modifiers := {}, query := · })) := by
  rw [conditionValue, Draft.run_takeValue_of_ok h]
  change Attempt.mk _ _ = _
  rw [Query.Edit.attempt_apply]
  cases c.query.apply .root c.modifiers.resolved clause.condition <;> rfl

theorem conditionOperand_operator (c : Cursor) (operator : Json) : c.conditionOperand ⟨.operator, operator⟩ =
    .ofExcept c (do return { c with draft := ← c.draft.setOperator (← Token.string ⟨.operator, operator⟩) }) := by
  unfold conditionOperand
  cases Token.string ⟨.operator, operator⟩ with
  | error e => rfl
  | ok operator =>
    simp only [Draft.attempt_takeOperator]
    cases h : c.draft.setOperator operator <;> simp [h, bind, Except.bind, Attempt.ofExcept, pure, Except.pure]

theorem valueOperand_value (c : Cursor) (clause : Identifier) (value : Json) : c.valueOperand clause ⟨.value, value⟩ =
    .ofExcept c ((c.query.assign clause value).map ({ c with query := · })) := by
  simp only [valueOperand, Query.Edit.attempt_assign]
  cases c.query.assign clause value <;> rfl

theorem group_conditions (hs : c.scope = .conditions) (nodes : List Node) : c.group nodes =
    .ofExcept { c with modifiers := {}, draft := {} }
      ((c.query.applyGroup c.modifiers.markers c.combinator nodes).map
        ({ c with modifiers := {}, draft := {}, query := · })) := by
  have hpending : (Draft.withMarkers c.modifiers.markers).pendingMarkers = c.modifiers.markers := rfl
  simp only [group, hs, Query.Edit.attempt_group, hpending]
  cases c.query.applyGroup c.modifiers.markers c.combinator nodes <;> rfl

end Cursor

end DocQuery
