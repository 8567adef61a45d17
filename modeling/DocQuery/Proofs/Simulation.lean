import DocQuery.Proofs.Clauses
import DocQuery.Proofs.Sorting

/-!
# Two runs side by side

Two calls *agree* (`Agree R`) if both fail with the same error, or both succeed and their results are related by `R`.
A relation between queries is a simulation (`Query.Simulation`) if every statement of a clause, made in two related
queries, agrees. Then the nodes of a group agree one by one (`Simulation.step`), and so do whole groups and trees
(`Simulation.walk`, `Simulation.walkAll`): what a cursor holds besides the query never depends on the query.
-/

namespace DocQuery

/-! ## Calls that agree -/

/-- Both calls fail with the same error, or the results of both are related. -/
inductive Agree {ε α β : Type} (R : α → β → Prop) : Except ε α → Except ε β → Prop
  | ok {a : α} {b : β} (h : R a b) : Agree R (.ok a) (.ok b)
  | error (e : ε) : Agree R (.error e) (.error e)

namespace Agree

variable {ε α β γ δ : Type} {R : α → β → Prop} {S : γ → δ → Prop} {x : Except ε α} {y : Except ε β}

theorem refl {R : α → α → Prop} (hR : ∀ a, R a a) (x : Except ε α) : Agree R x x := by
  cases x with
  | ok a => exact .ok (hR a)
  | error e => exact .error e

theorem bind {f : α → Except ε γ} {g : β → Except ε δ} (h : Agree R x y) (hfg : ∀ a b, R a b → Agree S (f a) (g b)) :
    Agree S (x >>= f) (y >>= g) := by
  cases h with
  | ok h => exact hfg _ _ h
  | error e => exact .error e

theorem map {f : α → γ} {g : β → δ} (h : Agree R x y) (hfg : ∀ a b, R a b → S (f a) (g b)) :
    Agree S (x.map f) (y.map g) := by
  cases h with
  | ok h => exact .ok (hfg _ _ h)
  | error e => exact .error e

/-- One call, and what follows it in either run. -/
theorem bind_same {f : α → Except ε γ} {g : α → Except ε δ} (x : Except ε α) (h : ∀ a, Agree S (f a) (g a)) :
    Agree S (x >>= f) (x >>= g) := by
  cases x with
  | ok a => exact h a
  | error e => exact .error e

theorem map_same {f : α → γ} {g : α → δ} (x : Except ε α) (h : ∀ a, S (f a) (g a)) : Agree S (x.map f) (x.map g) := by
  cases x with
  | ok a => exact .ok (h a)
  | error e => exact .error e

/-- What follows in either run may depend on how the first call came out. -/
theorem bind_ok {f : α → Except ε γ} {g : β → Except ε δ} (h : Agree R x y)
    (hfg : ∀ a b, x = .ok a → R a b → Agree S (f a) (g b)) : Agree S (x >>= f) (y >>= g) := by
  cases h with
  | ok h => exact hfg _ _ rfl h
  | error e => exact .error e

theorem error_iff (h : Agree R x y) (e : ε) : x = .error e ↔ y = .error e := by
  cases h with
  | ok _ => simp
  | error e' => simp

theorem exists_ok {a : α} (h : Agree R x y) (hx : x = .ok a) : ∃ b, y = .ok b ∧ R a b := by
  subst hx
  cases h with
  | ok h => exact ⟨_, rfl, h⟩

/-- Results that are related by a function. -/
theorem eq_map {k : α → β} (h : Agree (fun a b => b = k a) x y) : y = x.map k := by
  cases h with
  | ok h => rw [h]; rfl
  | error e => rfl

end Agree

/-! ## Simulations -/

/-- Statements that are made in related queries fail alike, or leave related queries. -/
structure Query.Simulation (R : Query → Query → Prop) : Prop where
  delete {q q' : Query} : R q q' → R q.delete q'.delete
  select {q q' : Query} (fields : List String) : R q q' → R (q.select fields) (q'.select fields)
  setCollection {q q' : Query} (name : String) : R q q' → R (q.setCollection name) (q'.setCollection name)
  setLimit {q q' : Query} (n : Nat) : R q q' → R (q.setLimit n) (q'.setLimit n)
  setSkip {q q' : Query} (n : Nat) : R q q' → R (q.setSkip n) (q'.setSkip n)
  insert {q q' : Query} (values : Object) : R q q' → R (q.insert values) (q'.insert values)
  update {q q' : Query} (values : Object) : R q q' → R (q.update values) (q'.update values)
  countRows {q q' : Query} : R q q' → R q.countRows q'.countRows
  countBy {q q' : Query} (attr : String) : R q q' → R (q.countBy attr) (q'.countBy attr)
  sort {q q' : Query} (attr : String) (direction : Json) :
    R q q' → Agree R (q.sort attr direction) (q'.sort attr direction)
  distinct {q q' : Query} (attributes : List String) : R q q' → Agree R (q.distinct attributes) (q'.distinct attributes)
  groupBy {q q' : Query} (attributes : List String) : R q q' → Agree R (q.groupBy attributes) (q'.groupBy attributes)
  apply {q q' : Query} (modifier : Modifier) (c : Condition) :
    R q q' → Agree R (q.apply .root modifier c) (q'.apply .root modifier c)
  applyExpr {q q' : Query} (outer : Combinator) (e : Expr) :
    R q q' → Agree R (q.applyExpr outer e) (q'.applyExpr outer e)

/-- Two cursors at the same place, over related queries. -/
inductive Cursor.Beside (R : Query → Query → Prop) : Cursor → Cursor → Prop
  | mk {c : Cursor} {q : Query} (h : R c.query q) : Beside R c { c with query := q }

/-- A call on a part of the state. -/
theorem Attempt.result_mk {σ τ : Type} (a : Attempt σ) (k : σ → τ) :
    (⟨k a.state, a.error⟩ : Attempt τ).result = a.result.map k := by
  unfold Attempt.result
  cases a.error <;> rfl

/-- A clause that collects pairs gives them to the query when it ends. -/
theorem Cursor.result_endClause {c : Cursor} {clause : Identifier} (hs : c.scope.pairClause? = some clause) :
    c.endClause.result = c.pairs.close >>= fun pairs =>
      (c.query.flush clause pairs).result.map fun q => { c with pairs := {}, query := q } := by
  unfold endClause
  rw [hs]
  cases c.pairs.close with
  | error e => rfl
  | ok pairs => exact Attempt.result_mk _ fun q => ({ c with pairs := {}, query := q } : Cursor)

/-- A value among conditions completes one, and the condition is emitted. -/
theorem Cursor.result_conditionValue (c : Cursor) (value : Json) :
    (c.conditionValue value).result = c.draft.complete value >>= fun completed =>
      (c.query.apply .root c.modifiers.resolved completed.1.condition).map fun q =>
        { c with draft := completed.2, modifiers := {}, query := q } := by
  cases h : c.draft.complete value with
  | error e =>
    rw [conditionValue_of_error h]
    rfl
  | ok completed =>
    rw [conditionValue_of_ok h, Attempt.result_ofExcept]
    rfl

namespace Cursor.Beside

variable {R : Query → Query → Prop} {c c' : Cursor}

/-- A key, an operator or a value among pairs. -/
theorem pairOperand (h : Beside R c c') (t : Token) :
    Agree (Beside R) (c.pairOperand t).result (c'.pairOperand t).result := by
  cases h with
  | mk hq =>
    unfold Cursor.pairOperand
    cases t.kind <;> simp only [Attempt.result_ofExcept]
    case key => exact .map_same _ fun key => .mk hq
    case value => exact .map_same _ fun pairs => .mk hq
    all_goals exact .error _

/-- A condition word. -/
theorem condition (h : Beside R c c') (t : Token) :
    Agree (Beside R) (c.condition t).result (c'.condition t).result := by
  cases h with
  | mk hq =>
    obtain ⟨scope, modifiers, combinator, draft, pairs, q⟩ := c
    cases scope with
    | conditions =>
      simp only [Cursor.condition, Attempt.result_ofExcept]
      refine .map_same _ fun word => ?_
      unfold Cursor.conditionWord
      split <;> exact .mk hq
    | ignored i => exact .ok (.mk hq)
    | _ => exact .error _

end Cursor.Beside

namespace Query.Simulation

variable {R : Query → Query → Prop} (hR : Simulation R) {q q' : Query} {c c' : Cursor}
include hR

/-! ## Statements -/

theorem assign (h : R q q') (clause : Identifier) (value : Json) :
    Agree R (q.assign clause value) (q'.assign clause value) := by
  cases clause <;> simp only [Query.assign]
  case select => exact .bind_same _ fun names => .ok (hR.select names h)
  case from_ | into | using_ => exact .bind_same _ fun name => .ok (hR.setCollection name h)
  case distinct => exact .bind_same _ fun names => hR.distinct names h
  case groupBy => exact .bind_same _ fun names => hR.groupBy names h
  case limit => exact .bind_same _ fun n => .ok (hR.setLimit n h)
  case skip | offset => exact .bind_same _ fun n => .ok (hR.setSkip n h)
  case delete => exact .ok h
  case count =>
    refine .bind_same _ fun names => .ok ?_
    have counted : ∀ (names : List String) {q q' : Query}, R q q' →
        R (names.foldl Query.countBy q) (names.foldl Query.countBy q') := by
      intro names
      induction names with
      | nil => exact fun h => h
      | cons name rest ih => exact fun h => ih (hR.countBy name h)
    exact counted names (hR.countRows h)
  all_goals exact .error _

theorem sortAll (pairs : List (String × Json)) (h : R q q') :
    Agree R (q.sortAll pairs).result (q'.sortAll pairs).result := by
  induction pairs generalizing q q' with
  | nil => exact .ok h
  | cons p rest ih =>
    obtain ⟨attr, direction⟩ := p
    rw [Query.result_sortAll_cons, Query.result_sortAll_cons]
    exact (hR.sort attr direction h).bind fun _ _ h => ih h

theorem flush (h : R q q') (clause : Identifier) (pairs : List (String × Json)) :
    Agree R (q.flush clause pairs).result (q'.flush clause pairs).result := by
  cases clause
  case orderBy => exact hR.sortAll pairs h
  case insert => exact .ok (hR.insert (Pairs.document pairs) h)
  case update => exact .ok (hR.update (Pairs.document pairs) h)
  all_goals exact .error _

theorem applyGroup (h : R q q') (markers : List Marker) (outer : Option Combinator) (nodes : List Node) :
    Agree R (q.applyGroup markers outer nodes) (q'.applyGroup markers outer nodes) := by
  unfold Query.applyGroup
  refine .bind_same _ fun reduced => ?_
  cases reduced with
  | none => exact .ok h
  | some e => exact hR.applyExpr (outer.getD .or) e h

/-! ## Nodes -/

open Cursor (Beside)

theorem endClause (h : Beside R c c') : Agree (Beside R) c.endClause.result c'.endClause.result := by
  cases h with
  | @mk q hq =>
    cases hs : c.scope.pairClause? with
    | none =>
      simp only [Cursor.endClause, hs]
      exact .ok (.mk hq)
    | some clause =>
      rw [Cursor.result_endClause hs, Cursor.result_endClause (c := { c with query := q }) hs]
      exact .bind_same _ fun pairs => (hR.flush hq clause pairs).map fun _ _ h => .mk h

/-- An identifier ends the clause before it and opens its own. -/
theorem identifier (h : Beside R c c') (value : Json) :
    Agree (Beside R) (c.step (.token ⟨.identifier, value⟩)).result (c'.step (.token ⟨.identifier, value⟩)).result := by
  cases value with
  | str name =>
    rw [Cursor.step_identifier, Cursor.step_identifier]
    refine (hR.endClause h).bind fun c₁ c₁' h₁ => .ok ?_
    cases h₁ with
    | @mk q' hq =>
      have hopen : R (if Identifier.ofName name = .delete then c₁.query.delete else c₁.query)
          (if Identifier.ofName name = .delete then q'.delete else q') := by
        split
        · exact hR.delete hq
        · exact hq
      exact .mk (c := c₁.openClause (.ofName name)) hopen
  | _ => exact .error _

/-- A value among conditions. -/
theorem conditionValue (h : Beside R c c') (value : Json) :
    Agree (Beside R) (c.conditionValue value).result (c'.conditionValue value).result := by
  cases h with
  | mk hq =>
    rw [Cursor.result_conditionValue, Cursor.result_conditionValue]
    exact .bind_same _ fun completed =>
      (hR.apply c.modifiers.resolved completed.1.condition hq).map fun _ _ h => .mk h

/-- A key, an operator or a value. -/
theorem operand (h : Beside R c c') (t : Token) : Agree (Beside R) (c.operand t).result (c'.operand t).result := by
  have hpair := h.pairOperand t
  have hvalue := hR.conditionValue h t.value
  cases h with
  | mk hq =>
    obtain ⟨scope, modifiers, combinator, draft, pairs, q⟩ := c
    obtain ⟨kind, value⟩ := t
    cases scope with
    | scanning => exact .error _
    | ignored i => exact .ok (.mk hq)
    | insertPairs | updatePairs | sortPairs => exact hpair
    | values clause =>
      simp only [Cursor.operand]
      cases kind
      case value =>
        simp only [Cursor.valueOperand_value, Attempt.result_ofExcept]
        exact (hR.assign hq clause value).map fun _ _ h => .mk h
      all_goals exact .error _
    | conditions =>
      simp only [Cursor.operand]
      cases kind
      case key =>
        simp only [Cursor.conditionOperand, Attempt.result_ofExcept]
        exact .map_same _ fun key => .mk hq
      case operator =>
        simp only [Cursor.conditionOperand_operator, Attempt.result_ofExcept]
        exact .bind_same _ fun operator => .bind_same _ fun draft => .ok (.mk hq)
      all_goals exact hvalue

theorem group (h : Beside R c c') (nodes : List Node) :
    Agree (Beside R) (c.group nodes).result (c'.group nodes).result := by
  cases h with
  | mk hq =>
    obtain ⟨scope, modifiers, combinator, draft, pairs, q⟩ := c
    cases scope with
    | conditions =>
      rw [Cursor.group_conditions rfl, Cursor.group_conditions rfl, Attempt.result_ofExcept, Attempt.result_ofExcept]
      exact (hR.applyGroup hq modifiers.markers combinator nodes).map fun _ _ h => .mk h
    | ignored i => exact .ok (.mk hq)
    | _ => exact .error _

/-- **Nodes agree**: what a cursor does with a node does not depend on its query. -/
theorem step (h : Beside R c c') (node : Node) : Agree (Beside R) (c.step node).result (c'.step node).result := by
  cases node with
  | group nodes => exact hR.group h nodes
  | token t =>
    obtain ⟨kind, value⟩ := t
    cases kind with
    | identifier => exact hR.identifier h value
    | condition => exact h.condition _
    | key | operator | value => exact hR.operand h _

/-! ## Runs -/

theorem run (h : Beside R c c') (nodes : List Node) : Agree (Beside R) (c.run nodes) (c'.run nodes) := by
  induction nodes generalizing c c' with
  | nil => exact .ok h
  | cons node rest ih =>
    rw [Cursor.run_cons, Cursor.run_cons]
    exact (hR.step h node).bind fun _ _ h => ih h

theorem finish (h : Beside R c c') (nodes : List Node) : Agree R (c.finish nodes) (c'.finish nodes) := by
  refine (hR.run h nodes).bind fun c₁ c₁' h₁ => (hR.endClause h₁).bind fun c₂ c₂' h₂ => .ok ?_
  cases h₂ with
  | mk hq => exact hq

/-- **Groups agree**, if they are walked from related queries. -/
theorem walk (h : R q q') (nodes : Group) : Agree R (q.walk nodes) (q'.walk nodes) :=
  hR.finish (.mk (c := { query := q }) h) nodes

/-- **Trees agree**, if they are compiled from related queries. -/
theorem walkAll (h : R q q') (groups : List Group) :
    Agree R (groups.foldlM Query.walk q) (groups.foldlM Query.walk q') := by
  induction groups generalizing q q' with
  | nil => exact .ok h
  | cons g groups ih =>
    rw [List.foldlM_cons, List.foldlM_cons]
    exact (hR.walk h g).bind fun _ _ h => ih h

/-- **Arrays can be exchanged** among conditions, if they agree in every query. -/
theorem compile_array (hrefl : ∀ q, R q q) {a a' : List Node}
    (h : ∀ (q : Query) markers outer, Agree R (q.applyGroup markers outer a) (q.applyGroup markers outer a'))
    (dialect : Dialect) (groups others : List Group) (before after : List Node) :
    Agree R (compile dialect ⟨groups ++ (before ++ .group a :: after) :: others⟩)
      (compile dialect ⟨groups ++ (before ++ .group a' :: after) :: others⟩) := by
  have hstep : ∀ c : Cursor, Agree (Beside R) (c.step (.group a)).result (c.step (.group a')).result := by
    intro c
    obtain ⟨scope, modifiers, combinator, draft, pairs, q⟩ := c
    cases scope with
    | conditions =>
      rw [Cursor.step, Cursor.step, Cursor.group_conditions rfl, Cursor.group_conditions rfl, Attempt.result_ofExcept,
        Attempt.result_ofExcept]
      exact (h q modifiers.markers combinator).map fun q₁ _ h₁ => .mk (c := ⟨_, _, _, _, _, q₁⟩) h₁
    | ignored i => exact .ok (.mk (hrefl q))
    | _ => exact .error _
  simp only [compile, List.foldlM_append, List.foldlM_cons]
  refine .bind_same _ fun q => Agree.bind ?_ fun _ _ hq => hR.walkAll hq others
  show Agree R (({ query := q } : Cursor).finish (before ++ .group a :: after))
    (({ query := q } : Cursor).finish (before ++ .group a' :: after))
  rw [Cursor.finish_append, Cursor.finish_append]
  refine .bind_same _ fun c => ?_
  rw [Cursor.finish_cons, Cursor.finish_cons]
  exact (hstep c).bind fun _ _ hc => hR.finish hc after

end Query.Simulation

end DocQuery
