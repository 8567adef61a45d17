import DocQuery.Proofs.Clauses
import DocQuery.Proofs.Sorting

/-!
# Calls on a cursor

A cursor is driven by calls (`Call`): one takes a node, and one ends the clause. A run goes on after the calls that
fail (`Cursor.after`). What a call can do is said once, failures included:

- `Cursor.Within` for a node that is no identifier (`within_step`),
- `Cursor.Ending` for the end of a clause (`ending_endClause`), which an identifier brings about before it opens its own
  (`step_of_identifier`).

`clauses_isolated` is what every run keeps: nothing waits outside of the clause that it belongs to.
-/

namespace DocQuery

inductive Call where
  | step (node : Node)
  | endClause

namespace Call

/-- The identifier of a call that opens a clause. -/
def identifier? : Call → Option Identifier
  | .step node => node.identifier?
  | .endClause => none

/-- Whether a call ends the clause that it finds. -/
def endsClause : Call → Bool
  | .step node => node.identifier?.isSome
  | .endClause => true

end Call

/-! ## Conditions touch the filter only -/

namespace Query

variable {q q' : Query}

theorem exists_filter_of_apply {family : Family} {modifier : Modifier} {c : Condition}
    (h : q.apply family modifier c = .ok q') : ∃ filter, q' = { q with filter } := by
  obtain ⟨filter, _, h⟩ := bind_eq_ok.mp h
  cases h
  exact ⟨filter, rfl⟩

theorem exists_filter_of_applyGroup {markers : List Marker} {outer : Option Combinator} {nodes : List Node}
    (h : q.applyGroup markers outer nodes = .ok q') : ∃ filter, q' = { q with filter } := by
  obtain ⟨reduced, _, h⟩ := bind_eq_ok.mp h
  cases reduced with
  | none =>
    cases h
    exact ⟨q.filter, rfl⟩
  | some e =>
    obtain ⟨filter, _, h⟩ := bind_eq_ok.mp h
    cases h
    exact ⟨filter, rfl⟩

end Query

namespace Cursor

variable {c : Cursor} {node : Node}

def call (c : Cursor) : Call → Attempt Cursor
  | .step node => c.step node
  | .endClause => c.endClause

/-- The cursor after some calls, whether they failed or not. -/
def after (c : Cursor) (calls : List Call) : Cursor := calls.foldl (fun c call => (c.call call).state) c

/-! ## What a call can do -/

/-- A sort clause with complete pairs, up to the first that names no direction. -/
structure Unsorted (c : Cursor) (before : List (String × Json)) (attr : String) (direction : Json)
    (after : List (String × Json)) : Prop where
  scope : c.scope = .sortPairs
  pairs : c.pairs = ⟨none, before ++ (attr, direction) :: after⟩
  directed : Pairs.Directed before
  undirected : Direction.ofJson? direction = none

/-- The end of a clause. -/
inductive Ending (c : Cursor) : Attempt Cursor → Prop
  /-- The clause collects no pairs. -/
  | idle (hs : c.scope.pairClause? = none) : Ending c ⟨c, none⟩
  | waiting {i : Identifier} {key : String} (hs : c.scope.pairClause? = some i) (hkey : c.pairs.key = some key) :
      Ending c ⟨{ c with pairs := {} }, some (.malformed (.keyWithoutValue key))⟩
  | unsorted {before after : List (String × Json)} {attr : String} {direction : Json}
      (h : c.Unsorted before attr direction after) :
      Ending c ⟨{ c with
        pairs := {}
        query := { c.query with order := c.query.order.insertAll (Pairs.directions before) } },
        some (.sortDirection attr direction)⟩
  | flushed {i : Identifier} {q : Query} (hs : c.scope.pairClause? = some i) :
      Ending c ⟨{ c with pairs := {}, query := q }, none⟩

theorem ending_endClause (c : Cursor) : Ending c c.endClause := by
  obtain ⟨scope, modifiers, combinator, draft, ⟨key, pairs⟩, q⟩ := c
  cases key with
  | some key =>
    cases scope with
    | insertPairs | updatePairs | sortPairs => exact .waiting rfl rfl
    | _ => exact .idle rfl
  | none =>
    cases scope with
    | insertPairs | updatePairs => exact .flushed rfl
    | sortPairs =>
      simp only [endClause, Scope.pairClause?, Pairs.close, Query.flush]
      rcases Pairs.directed_or_exists pairs with hall | ⟨before, attr, direction, after, rfl, hbefore, hnone⟩
      · rw [Query.sortAll_of_directed _ hall]
        exact .flushed rfl
      · rw [Query.sortAll_append _ hbefore, Query.sortAll_of_undirected _ hnone]
        exact .unsorted ⟨rfl, rfl, hbefore, hnone⟩
    | _ => exact .idle rfl

/-- An identifier ends the clause before it, and opens its own unless that fails. -/
theorem step_of_identifier {i : Identifier} (h : node.identifier? = some i) (c : Cursor) :
    (∃ e, c.endClause.error = some e ∧ c.step node = c.endClause) ∨
      (c.endClause.error = none ∧ c.step node = ⟨c.endClause.state.openClause i, none⟩) := by
  obtain ⟨name, rfl, rfl⟩ := Node.eq_of_identifier? h
  simp only [step, identifier, Token.string]
  obtain ⟨ended, error⟩ := c.endClause
  cases error with
  | none => exact .inr ⟨rfl, rfl⟩
  | some e => exact .inl ⟨e, rfl, rfl⟩

/-- A node that is no identifier. -/
inductive Within (c : Cursor) : Attempt Cursor → Prop
  /-- It is refused, or says nothing. -/
  | unmoved (error : Option BuildError) : Within c ⟨c, error⟩
  /-- Among conditions, it changes what waits. -/
  | waiting {modifiers : Modifiers} {combinator : Option Combinator} {draft : Draft} {error : Option BuildError}
      (hs : c.scope = .conditions) (hm : .and ∈ modifiers.markers → .and ∈ c.modifiers.markers) :
      Within c ⟨{ c with modifiers, combinator, draft }, error⟩
  /-- Among conditions, it adds to the filter. -/
  | emitted {draft : Draft} {filter : Filter} (hs : c.scope = .conditions) :
      Within c ⟨{ c with modifiers := {}, draft, query := { c.query with filter } }, none⟩
  | paired {i : Identifier} {pairs : Pairs} (hs : c.scope.pairClause? = some i) : Within c ⟨{ c with pairs }, none⟩
  | assigned {i : Identifier} {q : Query} (hs : c.scope = .values i) : Within c ⟨{ c with query := q }, none⟩

/-- A call that leaves the cursor alone if it fails. -/
theorem Within.ofExcept {x : Except BuildError Cursor} (h : ∀ c', x = .ok c' → Within c ⟨c', none⟩) :
    Within c (.ofExcept c x) := by
  cases x with
  | ok c' => exact h c' rfl
  | error e => exact .unmoved (some e)

theorem within_group (c : Cursor) (nodes : List Node) : Within c (c.group nodes) := by
  obtain ⟨scope, modifiers, combinator, draft, pairs, q⟩ := c
  cases scope with
  | conditions =>
    rw [group_conditions rfl]
    cases h : q.applyGroup modifiers.markers combinator nodes with
    | error e => exact .waiting rfl (by simp)
    | ok q' =>
      obtain ⟨filter, rfl⟩ := Query.exists_filter_of_applyGroup h
      exact .emitted rfl
  | ignored i => exact .unmoved none
  | _ => exact .unmoved (some _)

theorem within_condition (c : Cursor) (t : Token) : Within c (c.condition t) := by
  obtain ⟨scope, modifiers, combinator, draft, pairs, q⟩ := c
  cases scope with
  | conditions =>
    refine .ofExcept fun c' h => ?_
    obtain ⟨word, _, rfl⟩ := map_eq_ok.mp h
    unfold conditionWord
    split
    · exact .waiting rfl (by simp [Modifiers.push])
    · exact .waiting rfl (by simp [Modifiers.push])
    · exact .waiting rfl id
  | ignored i => exact .unmoved none
  | _ => exact .unmoved (some _)

theorem within_conditionOperand (hs : c.scope = .conditions) (t : Token) : Within c (c.conditionOperand t) := by
  have hvalue : Within c (c.conditionValue t.value) := by
    cases hd : c.draft.complete t.value with
    | error e =>
      rw [conditionValue_of_error hd]
      exact .unmoved (some e)
    | ok completed =>
      obtain ⟨clause, draft⟩ := completed
      rw [conditionValue_of_ok hd]
      cases h : c.query.apply .root c.modifiers.resolved clause.condition with
      | error e => exact .waiting hs (by simp)
      | ok q =>
        obtain ⟨filter, rfl⟩ := Query.exists_filter_of_apply h
        exact .emitted hs
  obtain ⟨kind, value⟩ := t
  cases kind with
  | key =>
    refine .ofExcept fun c' h => ?_
    obtain ⟨key, _, rfl⟩ := map_eq_ok.mp h
    exact .waiting hs id
  | operator =>
    rw [conditionOperand_operator]
    refine .ofExcept fun c' h => ?_
    obtain ⟨operator, _, h⟩ := bind_eq_ok.mp h
    obtain ⟨draft, _, h⟩ := bind_eq_ok.mp h
    cases h
    exact .waiting hs id
  | _ => exact hvalue

theorem within_operand (c : Cursor) (t : Token) : Within c (c.operand t) := by
  have hpairs : ∀ {i : Identifier}, c.scope.pairClause? = some i → Within c (c.pairOperand t) := by
    intro i hs
    unfold pairOperand
    cases t.kind with
    | key =>
      refine .ofExcept fun c' h => ?_
      obtain ⟨key, _, rfl⟩ := map_eq_ok.mp h
      exact .paired hs
    | value =>
      refine .ofExcept fun c' h => ?_
      obtain ⟨pairs, _, rfl⟩ := map_eq_ok.mp h
      exact .paired hs
    | _ => exact .unmoved (some _)
  unfold operand
  split
  · exact .unmoved (some _)
  · exact .unmoved none
  · rename_i hs
    exact within_conditionOperand hs t
  · rename_i clause hs
    obtain ⟨kind, value⟩ := t
    cases kind with
    | value =>
      rw [valueOperand_value]
      refine .ofExcept fun c' h => ?_
      obtain ⟨q, _, rfl⟩ := map_eq_ok.mp h
      exact .assigned hs
    | _ => exact .unmoved (some _)
  all_goals
    rename_i hs
    exact hpairs (by rw [hs]; rfl)

theorem within_step (hn : node.identifier? = none) (c : Cursor) : Within c (c.step node) := by
  cases node with
  | group nodes => exact within_group c nodes
  | token t =>
    obtain ⟨kind, value⟩ := t
    cases kind with
    | identifier =>
      cases value with
      | str name => cases hn
      | _ => exact .unmoved (some _)
    | condition => exact within_condition c _
    | key | operator | value => exact within_operand c _

/-! ## Clauses are isolated -/

/-- What waits in a cursor belongs to the clause that the cursor is in. -/
structure Isolated (c : Cursor) : Prop where
  conditions : c.scope ≠ .conditions → c.modifiers = {} ∧ c.combinator = none ∧ c.draft = {}
  pairs : c.Tidy
  modifiers : .and ∉ c.modifiers.markers

namespace Isolated

theorem start (q : Query) : Isolated { query := q } := ⟨fun _ => ⟨rfl, rfl, rfl⟩, fun _ => rfl, by simp⟩

theorem within {a : Attempt Cursor} (h : c.Isolated) (ha : Within c a) : a.state.Isolated := by
  cases ha with
  | unmoved error => exact h
  | waiting hs hm => exact ⟨fun hne => absurd hs hne, h.pairs, fun hand => h.modifiers (hm hand)⟩
  | emitted hs => exact ⟨fun hne => absurd hs hne, h.pairs, by simp⟩
  | paired hs => exact ⟨h.conditions, fun hnone => by simp [hs] at hnone, h.modifiers⟩
  | assigned hs => exact ⟨h.conditions, h.pairs, h.modifiers⟩

/-- No pairs are left where a clause ends. -/
theorem pairs_eq {a : Attempt Cursor} (h : c.Isolated) (ha : Ending c a) : a.state.pairs = {} := by
  cases ha with
  | idle hs => exact h.pairs hs
  | _ => rfl

theorem ending {a : Attempt Cursor} (h : c.Isolated) (ha : Ending c a) : a.state.Isolated := by
  cases ha with
  | idle hs => exact h
  | waiting hs _ => exact ⟨h.conditions, fun _ => rfl, h.modifiers⟩
  | unsorted _ => exact ⟨h.conditions, fun _ => rfl, h.modifiers⟩
  | flushed _ => exact ⟨h.conditions, fun _ => rfl, h.modifiers⟩

/-- A clause opens with nothing in it, if the one before it has ended. -/
theorem openClause (hpairs : c.pairs = {}) (i : Identifier) : (c.openClause i).Isolated :=
  ⟨fun _ => ⟨rfl, rfl, rfl⟩, fun _ => hpairs, by simp [Cursor.openClause]⟩

/-- Every call keeps clauses isolated, also one that fails. -/
theorem call (h : c.Isolated) (call : Call) : (c.call call).state.Isolated := by
  have hend := ending_endClause c
  cases call with
  | endClause => exact h.ending hend
  | step node =>
    cases hn : node.identifier? with
    | none => exact h.within (within_step hn c)
    | some i =>
      rcases step_of_identifier hn c with ⟨e, _, hstep⟩ | ⟨herror, hstep⟩
      · rw [Cursor.call, hstep]
        exact h.ending hend
      · rw [Cursor.call, hstep]
        exact openClause (h.pairs_eq hend) i

theorem after (h : c.Isolated) (calls : List Call) : (c.after calls).Isolated := by
  induction calls generalizing c with
  | nil => exact h
  | cons call calls ih => exact ih (h.call call)

end Isolated

/-! ## Scopes -/

theorem Within.scope_eq {a : Attempt Cursor} (ha : Within c a) : a.state.scope = c.scope := by
  cases ha <;> rfl

theorem Ending.scope_eq {a : Attempt Cursor} (ha : Ending c a) : a.state.scope = c.scope := by
  cases ha <;> rfl

/-- An identifier that is taken decides the scope, and nothing else changes it. -/
theorem scope_call (c : Cursor) (call : Call) :
    (∀ i, call.identifier? = some i → (c.call call).error = none → (c.call call).state.scope = .ofIdentifier i) ∧
      ((c.call call).state.scope ≠ c.scope → (∃ i, call.identifier? = some i) ∧ (c.call call).error = none) := by
  have hend := (ending_endClause c).scope_eq
  cases call with
  | endClause => exact ⟨fun i hi => (by cases hi), fun hne => absurd hend hne⟩
  | step node =>
    simp only [Cursor.call, Call.identifier?]
    cases hn : node.identifier? with
    | none => exact ⟨fun i hi => (by cases hi), fun hne => absurd (within_step hn c).scope_eq hne⟩
    | some i =>
      rcases step_of_identifier hn c with ⟨e, herror, hstep⟩ | ⟨_, hstep⟩
      · rw [hstep, herror]
        exact ⟨fun _ _ hnone => (by cases hnone), fun hne => absurd hend hne⟩
      · rw [hstep]
        refine ⟨fun j hj _ => ?_, fun _ => ⟨⟨i, rfl⟩, rfl⟩⟩
        cases hj
        rfl

/-- **Clauses are isolated.** After any calls, also ones that failed, nothing waits outside of the clause that it belongs
to: markers, a combinator and a clause in the making only among conditions, and pairs only where they are collected.
`AND` never waits as a marker. An identifier that is taken decides the scope alone, and no other call changes it. -/
theorem clauses_isolated (q : Query) (calls : List Call) :
    let c : Cursor := Cursor.after { query := q } calls
    (c.scope ≠ .conditions → c.modifiers.markers = [] ∧ c.combinator = none ∧ c.draft = {}) ∧
    (c.scope ≠ .insertPairs → c.scope ≠ .updatePairs → c.scope ≠ .sortPairs →
      c.pairs.key = none ∧ c.pairs.complete = []) ∧
    .and ∉ c.modifiers.markers ∧
    ∀ call, (∀ i, call.identifier? = some i → (c.call call).error = none →
        (c.call call).state.scope = .ofIdentifier i) ∧
      ((c.call call).state.scope ≠ c.scope →
        ∃ name, call = .step (.token ⟨.identifier, .str name⟩) ∧ (c.call call).error = none) := by
  intro c
  have h : c.Isolated := (Isolated.start q).after calls
  refine ⟨fun hne => ?_, fun hinsert hupdate hsort => ?_, h.modifiers, fun call => ?_⟩
  · obtain ⟨hmodifiers, hcombinator, hdraft⟩ := h.conditions hne
    exact ⟨by rw [hmodifiers], hcombinator, hdraft⟩
  · have hnone : c.scope.pairClause? = none := by
      cases hs : c.scope <;> simp_all [Scope.pairClause?]
    rw [h.pairs hnone]
    exact ⟨rfl, rfl⟩
  · obtain ⟨htaken, hchanged⟩ := scope_call c call
    refine ⟨htaken, fun hne => ?_⟩
    obtain ⟨⟨i, hi⟩, herror⟩ := hchanged hne
    cases call with
    | endClause => cases hi
    | step node =>
      obtain ⟨name, rfl, _⟩ := Node.eq_of_identifier? hi
      exact ⟨name, rfl, herror⟩

end Cursor

end DocQuery
