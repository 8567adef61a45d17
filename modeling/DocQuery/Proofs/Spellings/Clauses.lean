import DocQuery.Proofs.EmptyArrays.Reduction
import DocQuery.Proofs.Filter.Members
import DocQuery.Proofs.LostKeys.Clauses

/-!
# Written clauses

`Leaf.nodes` is the clause of a leaf as it is written, `[NOT] key [IN] [operator] value`. The same nodes are read in two
ways. At the top level of a filter clause, `NOT` and `IN` wait as modifiers for the value, which is applied at once
(`Cursor.finish_leaves`). In an array they are markers of the clause in the making, and the value gives a member of the
group (`Grouping.gather_leaves`); what its members add to a filter is known when the group is closed
(`Grouping.exists_close_clauses`). Either way the conditions go among the entries of one filter, in their order:
`Filter.conjoinAll`.
-/

namespace DocQuery

open Grouping

/-! ## The nodes of a clause -/

/-- A condition word. -/
def Node.word (word : String) : Node := .token ⟨.condition, .str word⟩

/-- What a clause compares with: `[operator] value`. -/
def Node.comparison (operator : Option String) (value : Json) : List Node :=
  operator.toList.map (fun operator => .token ⟨.operator, .str operator⟩) ++ [.token ⟨.value, value⟩]

/-- The markers that make a modifier, in the order in which they are written. -/
def Modifier.markers (m : Modifier) : List Marker :=
  (if m.isNegated then [.not] else []) ++ (if m.isListed then [.inList] else [])

theorem Modifier.resolved_markers (m : Modifier) : Modifiers.resolved ⟨m.markers⟩ = m := by
  cases m <;> rfl

namespace Leaf

/-- The clause up to what it compares with: `[NOT] key [IN]`. -/
def opening (l : Leaf) : List Node :=
  (if l.modifier.isNegated then [.word "NOT"] else []) ++ .token ⟨.key, .str l.condition.key⟩ ::
    (if l.modifier.isListed then [.word "IN"] else [])

/-- The clause of a leaf: `[NOT] key [IN] [operator] value`. -/
def nodes (l : Leaf) : List Node := l.opening ++ Node.comparison l.condition.operator l.condition.value

/-- The clause in an array. Its markers are kept with the last one in front. -/
def clause (l : Leaf) : Clause := ⟨l.modifier.markers.reverse, l.condition⟩

@[simp] theorem leaf_clause (l : Leaf) : l.clause.leaf = l := by
  obtain ⟨condition, modifier⟩ := l
  cases modifier <;> rfl

end Leaf

theorem Marker.ofCondition?_not : ofCondition? "NOT" = some .not := by decide +kernel

theorem Marker.ofCondition?_in : ofCondition? "IN" = some .inList := by decide +kernel

/-- Conditions among the entries of a filter, one after the other. -/
def Filter.conjoinAll (style : LikeStyle) (f : Filter) (ls : List Leaf) : Except BuildError Filter :=
  ls.foldlM (fun f l => f.apply style .root l.modifier l.condition) f

/-! ## At the top level -/

namespace Cursor

variable {c : Cursor}

theorem step_key (hs : c.scope = .conditions) (key : String) :
    (c.step (.token ⟨.key, .str key⟩)).result = .ok { c with draft := c.draft.setKey key } := by
  simp [step, operand, hs, conditionOperand, Token.string, Except.map]

theorem step_operator (hs : c.scope = .conditions) (hk : c.draft.key.isSome = true) (operator : String) :
    (c.step (.token ⟨.operator, .str operator⟩)).result =
      .ok { c with draft := { c.draft with operator := some operator, done := false } } := by
  have hset : c.draft.setOperator operator = .ok { c.draft with operator := some operator, done := false } :=
    Draft.setOperator_eq_ok.mpr ⟨hk, rfl⟩
  simp only [step, operand, hs, conditionOperand_operator, Attempt.result_ofExcept]
  exact bind_eq_ok.mpr ⟨operator, rfl, bind_eq_ok.mpr ⟨_, hset, rfl⟩⟩

/-- A value is applied at once, under the modifiers that wait for it. -/
theorem step_value (hs : c.scope = .conditions) {key : String} (hk : c.draft.key = some key)
    (hdone : c.draft.done = false) (value : Json) :
    (c.step (.token ⟨.value, value⟩)).result =
      (c.query.apply .root c.modifiers.resolved ⟨key, c.draft.operator, value⟩).map fun q =>
        { c with modifiers := {}, draft := ⟨c.draft.markers, c.draft.key, c.draft.operator, true⟩, query := q } := by
  have hcomplete : c.draft.complete value = .ok (⟨c.draft.markers, ⟨key, c.draft.operator, value⟩⟩,
      { c.draft with done := true }) := Draft.complete_eq_ok.mpr ⟨key, hk, hdone, rfl, rfl⟩
  simp only [step, operand, hs, conditionOperand, conditionValue_of_ok hcomplete, Attempt.result_ofExcept]

/-- A word that marks a condition waits as a modifier. -/
theorem run_mark (hs : c.scope = .conditions) {word : String} {m : Marker} (hword : Marker.ofCondition? word = some m)
    (hm : m ≠ .and) (present : Bool) :
    c.run (if present then [.word word] else []) =
      .ok { c with modifiers := ⟨c.modifiers.markers ++ if present then [m] else []⟩ } := by
  cases present with
  | false => simp [run, pure, Except.pure]
  | true =>
    have hstep : c.conditionWord word = { c with modifiers := ⟨c.modifiers.markers ++ [m]⟩ } := by
      cases m with
      | and => exact absurd rfl hm
      | not => simp [conditionWord, hword, Modifiers.push]
      | inList => simp [conditionWord, hword, Modifiers.push]
    show c.run [.token ⟨.condition, .str word⟩] = _
    rw [run_cons, step_word hs, hstep]
    rfl

/-- Between two clauses of a filter: no modifier waits, and the next key starts a clause. -/
structure Between (c : Cursor) : Prop where
  scope : c.scope = .conditions
  modifiers : c.modifiers = {}
  draft : c.draft.Settled

/-- In a chain of conditions on one key: no modifier waits, and an operator opens the key again. -/
structure Chained (c : Cursor) (key : String) : Prop where
  scope : c.scope = .conditions
  modifiers : c.modifiers = {}
  draft : c.draft.key = some key

/-- The words and the key of a clause leave its modifier and its key waiting. -/
theorem run_opening (h : c.Between) (l : Leaf) :
    c.run l.opening =
      .ok { c with modifiers := ⟨l.modifier.markers⟩, draft := { key := some l.condition.key } } := by
  let c₁ : Cursor := { c with modifiers := ⟨[] ++ if l.modifier.isNegated then [.not] else []⟩ }
  let c₂ : Cursor := { c₁ with draft := { key := some l.condition.key } }
  have hnot : c.run (if l.modifier.isNegated then [.word "NOT"] else []) = .ok c₁ := by
    rw [run_mark h.scope Marker.ofCondition?_not (by decide), h.modifiers]
  have hkey : (c₁.step (.token ⟨.key, .str l.condition.key⟩)).result = .ok c₂ := by
    rw [step_key (c := c₁) h.scope]
    exact congrArg (fun d => Except.ok { c₁ with draft := d }) (h.draft.setKey _)
  rw [Leaf.opening, run_append, hnot]
  refine (run_cons c₁ _ _).trans ?_
  rw [hkey]
  exact run_mark (c := c₂) h.scope Marker.ofCondition?_in (by decide) l.modifier.isListed

/-- A comparison takes the key that waits, or opens it again. -/
theorem run_comparison (hs : c.scope = .conditions) {key : String} (hk : c.draft.key = some key)
    {operator : Option String} (hfresh : operator = none → c.draft.operator = none ∧ c.draft.done = false)
    (value : Json) :
    c.run (Node.comparison operator value) =
      (c.query.apply .root c.modifiers.resolved ⟨key, operator, value⟩).map fun q =>
        { c with modifiers := {}, draft := ⟨c.draft.markers, c.draft.key, operator, true⟩, query := q } := by
  have hvalue : ∀ c : Cursor, c.run [.token ⟨.value, value⟩] = (c.step (.token ⟨.value, value⟩)).result := fun c => by
    rw [run_cons]
    exact bind_pure _
  cases operator with
  | none =>
    obtain ⟨hoperator, hdone⟩ := hfresh rfl
    have hstep := step_value hs hk hdone value
    rw [hoperator] at hstep
    exact (hvalue c).trans hstep
  | some operator =>
    let c₁ : Cursor := { c with draft := { c.draft with operator := some operator, done := false } }
    have hoperator : (c.step (.token ⟨.operator, .str operator⟩)).result = .ok c₁ :=
      step_operator hs (by simp [hk]) operator
    have hstep := step_value (c := c₁) hs hk rfl value
    refine (run_cons c _ _).trans ?_
    rw [hoperator]
    exact (hvalue c₁).trans hstep

theorem run_leaf (h : c.Between) (l : Leaf) :
    c.run l.nodes = (c.query.apply .root l.modifier l.condition).map fun q =>
      { c with draft := ⟨[], some l.condition.key, l.condition.operator, true⟩, query := q } := by
  let c₁ : Cursor := { c with modifiers := ⟨l.modifier.markers⟩, draft := { key := some l.condition.key } }
  rw [Leaf.nodes, run_append, run_opening h]
  refine (run_comparison (c := c₁) h.scope rfl (fun _ => ⟨rfl, rfl⟩) l.condition.value).trans ?_
  rw [h.modifiers, Modifier.resolved_markers]

/-- Blocks of nodes that apply one condition each and leave the cursor ready for the next apply all of them in turn. -/
theorem finish_blocks {α : Type} {block : α → List Node} (leaf : α → Leaf) {Ready : Cursor → Prop}
    (hscope : ∀ c, Ready c → c.scope = .conditions)
    (hblock : ∀ c a, Ready c → ∃ c' : Cursor, (∀ q, Ready { c' with query := q }) ∧
      c.run (block a) = (c.query.apply .root (leaf a).modifier (leaf a).condition).map fun q => { c' with query := q })
    (as : List α) (hc : Ready c) :
    c.finish (as.flatMap block) =
      (Filter.conjoinAll c.query.dialect.like c.query.filter (as.map leaf)).map fun f =>
        { c.query with filter := f } := by
  induction as generalizing c with
  | nil =>
    simp only [List.flatMap_nil, finish_nil, endClause, hscope c hc, Scope.pairClause?]
    rfl
  | cons a as ih =>
    obtain ⟨c', hready, hrun⟩ := hblock c a hc
    rw [List.flatMap_cons, finish_append, hrun, List.map_cons, Filter.conjoinAll, List.foldlM_cons, Query.apply]
    cases c.query.filter.apply c.query.dialect.like .root (leaf a).modifier (leaf a).condition with
    | error e => rfl
    | ok f => exact ih (hready { c.query with filter := f })

/-- Clauses at the top level add their conditions to the entries of the filter. -/
theorem finish_leaves (h : c.Between) (ls : List Leaf) :
    c.finish (ls.flatMap Leaf.nodes) =
      (Filter.conjoinAll c.query.dialect.like c.query.filter ls).map fun f => { c.query with filter := f } := by
  have hblock : ∀ (c : Cursor) (l : Leaf), c.Between → ∃ c' : Cursor, (∀ q, ({ c' with query := q } : Cursor).Between) ∧
      c.run l.nodes = (c.query.apply .root l.modifier l.condition).map fun q => { c' with query := q } := by
    intro c l hc
    let c' : Cursor := { c with draft := ⟨[], some l.condition.key, l.condition.operator, true⟩ }
    exact ⟨c', fun _ => ⟨hc.scope, hc.modifiers, .inr rfl⟩, run_leaf hc l⟩
  have hfinish := finish_blocks id (fun c hc => Between.scope hc) hblock ls h
  rwa [List.map_id] at hfinish

end Cursor

/-! ## In an array -/

/-- In a chain of conditions on one key, under the markers in front of it. -/
structure Draft.Chained (d : Draft) (markers : List Marker) (key : String) : Prop where
  marked : d.markers = markers
  keyed : d.key = some key

namespace Grouping

variable {conjoined : Bool} {g : Gathered}

/-- A value gives a member, with the markers that the clause in the making has. -/
theorem gatherNode_value (conjoined : Bool) {key : String} (hk : g.draft.key = some key) (hdone : g.draft.done = false)
    (value : Json) :
    gatherNode conjoined g (.token ⟨.value, value⟩) =
      .ok ⟨⟨g.draft.markers, g.draft.key, g.draft.operator, true⟩, g.combinator,
        g.members ++ [.clause (Clause.tag conjoined ⟨g.draft.markers, ⟨key, g.draft.operator, value⟩⟩)]⟩ := by
  have hcomplete : g.draft.complete value = .ok (⟨g.draft.markers, ⟨key, g.draft.operator, value⟩⟩,
      { g.draft with done := true }) := Draft.complete_eq_ok.mpr ⟨key, hk, hdone, rfl, rfl⟩
  simp only [gatherNode, Gathered.token, hcomplete]
  rfl

/-- `NOT` starts a clause and `IN` marks it, so that the key keeps both. -/
theorem gather_opening (hd : g.draft.Settled) (l : Leaf) :
    gather conjoined g l.opening =
      .ok { g with draft := ⟨l.modifier.markers.reverse, some l.condition.key, none, false⟩ } := by
  obtain ⟨⟨key, operator, value⟩, modifier⟩ := l
  have hnot : ∀ g : Gathered, g.condition "NOT" = { g with draft := .withMarkers [.not] } := fun g => by
    simp only [Gathered.condition, Marker.ofCondition?_not]
  have hin : ∀ g : Gathered, g.condition "IN" = { g with draft := g.draft.mark .inList } := fun g => by
    simp only [Gathered.condition, Marker.ofCondition?_in]
  have hkey : gatherNode conjoined g (.token ⟨.key, .str key⟩) = .ok { g with draft := { key := some key } } := by
    rw [← hd.setKey key]
    rfl
  cases modifier with
  | plain => exact bind_eq_ok.mpr ⟨_, hkey, rfl⟩
  | inList =>
    refine bind_eq_ok.mpr ⟨_, hkey, bind_eq_ok.mpr ⟨_, gatherNode_word _ _ _, ?_⟩⟩
    rw [hin]
    rfl
  | not =>
    refine bind_eq_ok.mpr ⟨_, gatherNode_word _ _ _, bind_eq_ok.mpr ⟨_, rfl, ?_⟩⟩
    rw [hnot]
    rfl
  | notInList =>
    refine bind_eq_ok.mpr ⟨_, gatherNode_word _ _ _, bind_eq_ok.mpr ⟨_, rfl, ?_⟩⟩
    refine bind_eq_ok.mpr ⟨_, gatherNode_word _ _ _, ?_⟩
    rw [hnot, hin]
    rfl

theorem gather_comparison {key : String} (hk : g.draft.key = some key) {operator : Option String}
    (hfresh : operator = none → g.draft.operator = none ∧ g.draft.done = false) (value : Json) :
    gather conjoined g (Node.comparison operator value) =
      .ok ⟨⟨g.draft.markers, g.draft.key, operator, true⟩, g.combinator,
        g.members ++ [.clause (Clause.tag conjoined ⟨g.draft.markers, ⟨key, operator, value⟩⟩)]⟩ := by
  have hvalue : ∀ g : Gathered, gather conjoined g [.token ⟨.value, value⟩] =
      gatherNode conjoined g (.token ⟨.value, value⟩) := fun g => by
    rw [gather]
    exact bind_pure _
  cases operator with
  | none =>
    obtain ⟨hoperator, hdone⟩ := hfresh rfl
    have hnode := gatherNode_value conjoined hk hdone value
    rw [hoperator] at hnode
    exact (hvalue g).trans hnode
  | some operator =>
    let g₁ : Gathered := { g with draft := { g.draft with operator := some operator, done := false } }
    have hoperator : gatherNode conjoined g (.token ⟨.operator, .str operator⟩) = .ok g₁ :=
      gatherNode_operator conjoined (by simp [hk])
    show (gatherNode conjoined g (.token ⟨.operator, .str operator⟩) >>= _) = _
    rw [hoperator]
    exact (hvalue g₁).trans (gatherNode_value (g := g₁) conjoined hk rfl value)

theorem gather_leaf (hd : g.draft.Settled) (l : Leaf) :
    gather conjoined g l.nodes =
      .ok ⟨⟨l.modifier.markers.reverse, some l.condition.key, l.condition.operator, true⟩, g.combinator,
        g.members ++ [.clause (l.clause.tag conjoined)]⟩ := by
  let g₁ : Gathered := { g with draft := ⟨l.modifier.markers.reverse, some l.condition.key, none, false⟩ }
  rw [Leaf.nodes, gather_append, gather_opening hd]
  exact gather_comparison (g := g₁) rfl (fun _ => ⟨rfl, rfl⟩) l.condition.value

/-- Blocks of nodes that give one member each and leave the draft ready for the next give all of them in turn. -/
theorem gather_blocks {α : Type} {block : α → List Node} {member : α → Expr} (Ready : Draft → Prop)
    (hblock : ∀ (g : Gathered) a, Ready g.draft → ∃ d, Ready d ∧
      gather conjoined g (block a) = .ok ⟨d, g.combinator, g.members ++ [member a]⟩)
    (as : List α) (hg : Ready g.draft) :
    ∃ d, gather conjoined g (as.flatMap block) = .ok ⟨d, g.combinator, g.members ++ as.map member⟩ := by
  induction as generalizing g with
  | nil => exact ⟨g.draft, by simp [gather]⟩
  | cons a as ih =>
    obtain ⟨d, hd, hfirst⟩ := hblock g a hg
    obtain ⟨d', hrest⟩ := ih (g := ⟨d, g.combinator, g.members ++ [member a]⟩) hd
    refine ⟨d', ?_⟩
    rw [List.flatMap_cons, gather_append, hfirst]
    refine hrest.trans ?_
    rw [List.append_assoc]
    rfl

/-- Clauses in an array become its members. -/
theorem gather_leaves (conjoined : Bool) (ls : List Leaf) :
    ∃ d, gather conjoined {} (ls.flatMap Leaf.nodes) =
      .ok ⟨d, none, ls.map fun l => .clause (l.clause.tag conjoined)⟩ := by
  refine gather_blocks Draft.Settled (fun g l hg => ⟨_, ?_, gather_leaf hg l⟩) ls (.inl rfl)
  exact .inr rfl

/-! ## What the members add to a filter -/

/-- Clauses that hold together go among the entries of the group's filter. -/
theorem addMembers_clauses {style : LikeStyle} {join : Combinator} {cs : List Clause}
    (h : join = .and ∨ ∀ c ∈ cs, c.markers.contains .and = true) (f : Filter) :
    Filter.addMembers style join f (cs.map .clause) = Filter.conjoinAll style f (cs.map Clause.leaf) := by
  induction cs generalizing f with
  | nil => rfl
  | cons c cs ih =>
    have hroot : c.markers.contains .and = true ∨ join = .and := h.symm.imp_left fun hall => hall c List.mem_cons_self
    have hrest : join = .and ∨ ∀ c ∈ cs, c.markers.contains .and = true :=
      h.imp_right fun hall c hc => hall c (List.mem_cons_of_mem _ hc)
    rw [List.map_cons, Filter.addMembers, Filter.addMember_clause_eq, if_pos hroot]
    simp only [ih hrest]
    rfl

theorem conjoinAll_ne_nil {style : LikeStyle} {f nested : Filter} {ls : List Leaf} (hne : f ≠ [] ∨ ls ≠ [])
    (h : Filter.conjoinAll style f ls = .ok nested) : nested ≠ [] := by
  induction ls generalizing f with
  | nil =>
    cases h
    exact hne.resolve_right (by simp)
  | cons l ls ih =>
    rw [Filter.conjoinAll, List.foldlM_cons, bind_eq_ok] at h
    obtain ⟨f₁, happly, hrest⟩ := h
    obtain ⟨fragment, _, rfl⟩ := map_eq_ok.mp happly
    exact ih (.inl (Filter.conjoin_ne_nil f _ fragment)) hrest

/-- A group of clauses that hold together, joined by `AND`: one filter with all of them, under the connective. -/
theorem exists_close_clauses {cs : List Clause} (hmembers : g.members = cs.map .clause) (hne : cs ≠ [])
    (hjoin : 1 < cs.length → g.combinator = some .and ∨ ∀ c ∈ cs, c.markers.contains .and = true) :
    ∃ e, g.close [] = .ok (some e) ∧ ∀ style (f : Filter),
      f.addExpr style .and e =
        (Filter.conjoinAll style [] (cs.map Clause.leaf)).map fun nested => f.push .and (.obj nested) := by
  rcases cs with _ | ⟨c, _ | ⟨c', cs⟩⟩
  · exact absurd rfl hne
  · -- A clause alone goes under the connective by itself, and is the only entry of the filter otherwise.
    refine ⟨.clause c, by simp [Gathered.close, hmembers, Expr.inherit], fun style f => ?_⟩
    rw [Filter.addExpr_clause_eq, Filter.apply, List.map_singleton, Filter.conjoinAll, List.foldlM_cons, Filter.apply]
    cases c.leaf.condition.fragment style c.leaf.modifier with
    | error e => rfl
    | ok fragment => rfl
  · have htwo : 2 ≤ g.members.length := by simp [hmembers]
    have hall : g.combinator.getD .or = .and ∨ ∀ d ∈ c :: c' :: cs, d.markers.contains .and = true :=
      (hjoin (by simp)).imp_left fun hand => by rw [hand]; rfl
    refine ⟨.group (g.combinator.getD .or) g.members, Gathered.close_of_two htwo [], fun style f => ?_⟩
    rw [Filter.addExpr, hmembers, addMembers_clauses hall]
    cases hnested : Filter.conjoinAll style [] ((c :: c' :: cs).map Clause.leaf) with
    | error e => rfl
    | ok nested =>
      have hfilled : nested ≠ [] := conjoinAll_ne_nil (.inr (by simp)) hnested
      exact congrArg Except.ok (Filter.graft_of_ne_nil f .and hfilled)

end Grouping

end DocQuery
