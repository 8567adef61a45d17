import DocQuery.Proofs.Edits

/-!
# Groups as lists of clauses

An identifier opens a clause that reaches to the next identifier of the group. `Group.cut` cuts a group at its
identifiers, and `Query.walk` is a fold over the clauses (`walk_eq`): nothing that a cursor holds back in one clause
is left when the next one opens, so each clause can be read from a fresh start (`Query.readClause`).
-/

namespace DocQuery

/-! ## Results of calls -/

section Results

variable {ε α β : Type}

theorem bind_eq_ok {x : Except ε α} {g : α → Except ε β} {b : β} :
    (x >>= g) = .ok b ↔ ∃ a, x = .ok a ∧ g a = .ok b := by
  cases x with
  | error e => simp [bind, Except.bind]
  | ok a => simp [bind, Except.bind]

theorem map_eq_ok {x : Except ε α} {g : α → β} {b : β} : x.map g = .ok b ↔ ∃ a, x = .ok a ∧ g a = b := by
  cases x with
  | error e => simp [Except.map]
  | ok a => simp [Except.map]

theorem map_bind {γ : Type} (x : Except ε α) (g : α → Except ε β) (k : β → γ) :
    (x >>= g).map k = x >>= fun a => (g a).map k := by
  cases x <;> rfl

theorem exists_eq_ok {x : Except ε α} (h : x.isOk = true) : ∃ a, x = .ok a := by
  cases x with
  | error e => cases h
  | ok a => exact ⟨a, rfl⟩

/-- Two continuations that agree on the result of a call. -/
theorem bind_congr_ok {x : Except ε α} {g g' : α → Except ε β} (h : ∀ a, x = .ok a → g a = g' a) :
    (x >>= g) = (x >>= g') := by
  cases x with
  | error e => rfl
  | ok a => exact h a rfl

/-- What a call and its continuation give, if they give anything. -/
theorem toOption_bind (x : Except ε α) (g : α → Except ε β) :
    (x >>= g).toOption = x.toOption.bind fun a => (g a).toOption := by
  cases x <;> rfl

/-- Two calls that give the same results, whatever their errors. -/
theorem toOption_eq_of_ok_iff {x y : Except ε α} (h : ∀ a, x = .ok a ↔ y = .ok a) : x.toOption = y.toOption := by
  cases x with
  | ok a => rw [(h a).mp rfl]
  | error e =>
    cases y with
    | ok b => cases (h b).mpr rfl
    | error e' => rfl

end Results

/-! ## Drafts -/

namespace Draft

variable {d d' : Draft}

theorem isPending_eq_false_iff : d.isPending = false ↔ d.key.isSome = true := by
  simp [isPending, Option.isNone_eq_false_iff]

theorem isSome_key_setKey (d : Draft) (key : String) : (d.setKey key).key.isSome = true := by
  unfold setKey
  split <;> rfl

/-- An operator needs a key, and opens it for another value. -/
theorem setOperator_eq_ok {operator : String} :
    d.setOperator operator = .ok d' ↔
      d.key.isSome = true ∧ d' = { d with operator := some operator, done := false } := by
  unfold setOperator
  cases h : d.isPending with
  | true =>
    have hkey : ¬ d.key.isSome = true := by simpa [isPending, Option.isSome_iff_ne_none] using h
    simp [hkey]
  | false =>
    have hkey := isPending_eq_false_iff.mp h
    simp [hkey, eq_comm]

/-- A value needs a key that is open. -/
theorem complete_eq_ok {value : Json} {clause : Clause} :
    d.complete value = .ok (clause, d') ↔ ∃ key, d.key = some key ∧ d.done = false ∧
      clause = ⟨d.markers, ⟨key, d.operator, value⟩⟩ ∧ d' = { d with done := true } := by
  unfold complete
  split
  · rename_i key hkey hdone
    simp [hkey, hdone, eq_comm]
  · rename_i hne
    simp only [reduceCtorEq, false_iff]
    rintro ⟨key, hkey, hdone, _⟩
    exact hne key hkey hdone

end Draft

/-! ## Cutting a group -/

/-- The identifier that a node names. -/
def Node.identifier? : Node → Option Identifier
  | .token ⟨.identifier, .str name⟩ => some (.ofName name)
  | _ => none

theorem Node.eq_of_identifier? {node : Node} {i : Identifier} (h : node.identifier? = some i) :
    ∃ name, node = .token ⟨.identifier, .str name⟩ ∧ Identifier.ofName name = i := by
  unfold Node.identifier? at h
  split at h
  · rename_i name
    exact ⟨name, rfl, Option.some.inj h⟩
  · cases h

/-- An identifier with the nodes up to the next one. -/
structure Segment where
  identifier : Identifier
  nodes : List Node

/-- The nodes in front of the first identifier, and the clauses after them. -/
def Group.cut : List Node → List Node × List Segment
  | [] => ([], [])
  | node :: rest =>
    match node.identifier? with
    | some identifier => ([], ⟨identifier, (Group.cut rest).1⟩ :: (Group.cut rest).2)
    | none => (node :: (Group.cut rest).1, (Group.cut rest).2)

/-- The clauses of a tree, in the order of the document. -/
def Tree.segments (tree : Tree) : List Segment := tree.groups.flatMap fun g => (Group.cut g).2

namespace Cursor

variable {c c' : Cursor} {node : Node}

/-! ## Runs -/

/-- Takes the nodes one after the other, up to the first error. -/
def run (c : Cursor) (nodes : List Node) : Except BuildError Cursor :=
  nodes.foldlM (fun c node => (c.step node).result) c

/-- Takes the nodes, and ends the last clause. -/
def finish (c : Cursor) (nodes : List Node) : Except BuildError Query := do
  let c ← c.run nodes
  return (← c.endClause.result).query

theorem run_cons (c : Cursor) (node : Node) (rest : List Node) :
    c.run (node :: rest) = (c.step node).result >>= fun c => c.run rest := by
  simp [run]

theorem run_append (c : Cursor) (xs ys : List Node) : c.run (xs ++ ys) = c.run xs >>= fun c => c.run ys := by
  simp [run]

theorem finish_nil (c : Cursor) : c.finish [] = c.endClause.result >>= fun c => pure c.query := rfl

theorem finish_cons (c : Cursor) (node : Node) (rest : List Node) :
    c.finish (node :: rest) = (c.step node).result >>= fun c => c.finish rest := by
  simp only [finish, run_cons, bind_assoc]

theorem finish_append (c : Cursor) (xs ys : List Node) : c.finish (xs ++ ys) = c.run xs >>= fun c => c.finish ys := by
  simp only [finish, run_append, bind_assoc]

/-! ## What a step does in each scope -/

/-- The steps among conditions that succeed. -/
inductive ConditionStep (c : Cursor) : Node → Cursor → Prop
  | array {nodes : List Node} {q : Query} (h : c.query.applyGroup c.modifiers.markers c.combinator nodes = .ok q) :
      ConditionStep c (.group nodes) { c with modifiers := {}, draft := {}, query := q }
  | key (key : String) : ConditionStep c (.token ⟨.key, .str key⟩) { c with draft := c.draft.setKey key }
  | operator {operator : String} {draft : Draft} (h : c.draft.setOperator operator = .ok draft) :
      ConditionStep c (.token ⟨.operator, .str operator⟩) { c with draft }
  | value {value : Json} {clause : Clause} {draft : Draft} {q : Query}
      (hd : c.draft.complete value = .ok (clause, draft))
      (hq : c.query.apply .root c.modifiers.resolved clause.condition = .ok q) :
      ConditionStep c (.token ⟨.value, value⟩) { c with draft, modifiers := {}, query := q }
  | word (word : String) : ConditionStep c (.token ⟨.condition, .str word⟩) (c.conditionWord word)

theorem string_eq_ok {t : Token} {s : String} : t.string = .ok s ↔ t.value = .str s := by
  unfold Token.string
  split <;> simp_all

/-- An identifier token that names nothing is refused in every scope. -/
theorem identifier_ne_ok {value : Json} (hn : (Node.token ⟨.identifier, value⟩).identifier? = none) :
    (c.step (.token ⟨.identifier, value⟩)).result ≠ .ok c' := by
  intro h
  cases value <;> simp [Node.identifier?] at hn
  all_goals simp [step, identifier, Token.string, Attempt.result] at h

theorem step_scanning (hs : c.scope = .scanning) (hn : node.identifier? = none) : (c.step node).result ≠ .ok c' := by
  intro h
  cases node with
  | group nodes => simp [step, group, hs, Attempt.result] at h
  | token t =>
    obtain ⟨kind, value⟩ := t
    cases kind with
    | identifier => exact identifier_ne_ok hn h
    | condition => simp [step, condition, hs, Attempt.result] at h
    | _ => simp [step, operand, hs, Attempt.result] at h

theorem step_ignored {i : Identifier} (hs : c.scope = .ignored i) (hn : node.identifier? = none)
    (h : (c.step node).result = .ok c') : c' = c := by
  cases node with
  | group nodes => simpa [step, group, hs, Attempt.result, eq_comm] using h
  | token t =>
    obtain ⟨kind, value⟩ := t
    cases kind with
    | identifier => exact absurd h (identifier_ne_ok hn)
    | condition => simpa [step, condition, hs, Attempt.result, eq_comm] using h
    | _ => simpa [step, operand, hs, Attempt.result, eq_comm] using h

theorem step_values {i : Identifier} (hs : c.scope = .values i) (hn : node.identifier? = none)
    (h : (c.step node).result = .ok c') :
    ∃ value q, node = .token ⟨.value, value⟩ ∧ c.query.assign i value = .ok q ∧ c' = { c with query := q } := by
  cases node with
  | group nodes => simp [step, group, hs, Attempt.result] at h
  | token t =>
    obtain ⟨kind, value⟩ := t
    cases kind with
    | identifier => exact absurd h (identifier_ne_ok hn)
    | condition => simp [step, condition, hs, Attempt.result] at h
    | value =>
      simp only [step, operand, hs, valueOperand_value, Attempt.result_ofExcept, map_eq_ok] at h
      obtain ⟨q, hq, rfl⟩ := h
      exact ⟨value, q, rfl, hq, by rw [hs]⟩
    | _ => simp [step, operand, hs, valueOperand, Attempt.result] at h

/-- The operands of the three clauses that collect pairs. -/
theorem operand_pairs {i : Identifier} (hs : c.scope.pairClause? = some i) (t : Token) :
    c.operand t = c.pairOperand t := by
  cases h : c.scope <;> simp [h, Scope.pairClause?] at hs <;> simp [operand, h]

theorem step_pairs {i : Identifier} (hs : c.scope.pairClause? = some i) (hn : node.identifier? = none)
    (h : (c.step node).result = .ok c') :
    (∃ key, node = .token ⟨.key, .str key⟩ ∧ c' = { c with pairs := c.pairs.setKey key }) ∨
    (∃ value pairs, node = .token ⟨.value, value⟩ ∧ c.pairs.setValue value = .ok pairs ∧ c' = { c with pairs }) := by
  cases node with
  | group nodes =>
    cases hscope : c.scope <;> simp [hscope, Scope.pairClause?] at hs <;>
      simp [step, group, hscope, Attempt.result] at h
  | token t =>
    obtain ⟨kind, value⟩ := t
    cases kind with
    | identifier => exact absurd h (identifier_ne_ok hn)
    | condition =>
      cases hscope : c.scope <;> simp [hscope, Scope.pairClause?] at hs <;>
        simp [step, condition, hscope, Attempt.result] at h
    | key =>
      simp only [step, operand_pairs hs, pairOperand, Attempt.result_ofExcept, map_eq_ok, string_eq_ok] at h
      obtain ⟨key, rfl, rfl⟩ := h
      exact .inl ⟨key, rfl, rfl⟩
    | value =>
      simp only [step, operand_pairs hs, pairOperand, Attempt.result_ofExcept, map_eq_ok] at h
      obtain ⟨pairs, hp, rfl⟩ := h
      exact .inr ⟨value, pairs, rfl, hp, rfl⟩
    | operator => simp [step, operand_pairs hs, pairOperand, Attempt.result] at h

theorem step_conditions (hs : c.scope = .conditions) (hn : node.identifier? = none)
    (h : (c.step node).result = .ok c') : ConditionStep c node c' := by
  cases node with
  | group nodes =>
    simp only [step, group_conditions hs, Attempt.result_ofExcept, map_eq_ok] at h
    obtain ⟨q, hq, rfl⟩ := h
    exact .array hq
  | token t =>
    obtain ⟨kind, value⟩ := t
    cases kind with
    | identifier => exact absurd h (identifier_ne_ok hn)
    | condition =>
      simp only [step, condition, hs, Attempt.result_ofExcept, map_eq_ok, string_eq_ok] at h
      obtain ⟨word, rfl, rfl⟩ := h
      exact .word word
    | key =>
      simp only [step, operand, hs, conditionOperand, Attempt.result_ofExcept, map_eq_ok, string_eq_ok] at h
      obtain ⟨key, rfl, rfl⟩ := h
      rw [← hs]
      exact .key key
    | operator =>
      simp only [step, operand, hs, conditionOperand_operator, Attempt.result_ofExcept, bind_eq_ok, string_eq_ok] at h
      obtain ⟨operator, rfl, draft, hd, h⟩ := h
      cases h
      rw [← hs]
      exact .operator hd
    | value =>
      simp only [step, operand, hs, conditionOperand] at h
      cases hd : c.draft.complete value with
      | error e =>
        rw [conditionValue_of_error hd] at h
        cases h
      | ok completed =>
        rw [conditionValue_of_ok hd, Attempt.result_ofExcept, map_eq_ok] at h
        obtain ⟨q, hq, rfl⟩ := h
        exact .value hd hq

/-- Arrays that do the same to every query are taken alike. -/
theorem step_array_congr {a a' : List Node}
    (h : ∀ (q : Query) markers outer, q.applyGroup markers outer a = q.applyGroup markers outer a') (c : Cursor) :
    (c.step (.group a)).result = (c.step (.group a')).result := by
  by_cases hs : c.scope = .conditions
  · simp only [step, group_conditions hs, h]
  · cases hscope : c.scope <;> simp_all [step, group]

/-! ## Nothing waits between clauses -/

/-- A word touches the markers and the combinator only. -/
theorem conditionWord_eq (c : Cursor) (word : String) :
    ∃ modifiers combinator, c.conditionWord word = { c with modifiers, combinator } := by
  unfold conditionWord
  split
  · exact ⟨c.modifiers.push .not, c.combinator, rfl⟩
  · exact ⟨c.modifiers.push .inList, c.combinator, rfl⟩
  · exact ⟨c.modifiers, _, rfl⟩

theorem scope_conditionWord (c : Cursor) (word : String) : (c.conditionWord word).scope = c.scope := by
  obtain ⟨_, _, h⟩ := c.conditionWord_eq word
  rw [h]

theorem draft_conditionWord (c : Cursor) (word : String) : (c.conditionWord word).draft = c.draft := by
  obtain ⟨_, _, h⟩ := c.conditionWord_eq word
  rw [h]

theorem pairs_conditionWord (c : Cursor) (word : String) : (c.conditionWord word).pairs = c.pairs := by
  obtain ⟨_, _, h⟩ := c.conditionWord_eq word
  rw [h]

theorem query_conditionWord (c : Cursor) (word : String) : (c.conditionWord word).query = c.query := by
  obtain ⟨_, _, h⟩ := c.conditionWord_eq word
  rw [h]

/-- A node that is no identifier stays in the clause, and touches the pairs only where they are collected. -/
theorem step_frame (hn : node.identifier? = none) (h : (c.step node).result = .ok c') :
    c'.scope = c.scope ∧ (c.scope.pairClause? = none → c'.pairs = c.pairs) := by
  cases hp : c.scope.pairClause? with
  | some i =>
    refine ⟨?_, fun hnone => by cases hnone⟩
    rcases step_pairs hp hn h with ⟨_, _, rfl⟩ | ⟨_, _, _, _, rfl⟩ <;> rfl
  | none =>
    cases hs : c.scope with
    | scanning => exact absurd h (step_scanning hs hn)
    | ignored i => rw [step_ignored hs hn h]; exact ⟨hs, fun _ => rfl⟩
    | values i =>
      obtain ⟨value, q, _, _, rfl⟩ := step_values hs hn h
      exact ⟨hs, fun _ => rfl⟩
    | conditions =>
      cases step_conditions hs hn h with
      | word word => exact ⟨by rw [scope_conditionWord, hs], fun _ => pairs_conditionWord c word⟩
      | _ => exact ⟨hs, fun _ => rfl⟩
    | _ => simp [hs, Scope.pairClause?] at hp

theorem scope_run {nodes : List Node} (hn : ∀ n ∈ nodes, n.identifier? = none) (h : c.run nodes = .ok c') :
    c'.scope = c.scope := by
  induction nodes generalizing c with
  | nil => cases h; rfl
  | cons node rest ih =>
    rw [List.forall_mem_cons] at hn
    rw [run_cons, bind_eq_ok] at h
    obtain ⟨c₁, hstep, hrest⟩ := h
    rw [ih hn.2 hrest, (step_frame hn.1 hstep).1]

/-- Pairs wait only in a clause that collects them. -/
def Tidy (c : Cursor) : Prop := c.scope.pairClause? = none → c.pairs = {}

theorem Tidy.step (h : c.Tidy) (hn : node.identifier? = none) (hstep : (c.step node).result = .ok c') : c'.Tidy := by
  obtain ⟨hscope, hpairs⟩ := step_frame hn hstep
  intro hnone
  rw [hscope] at hnone
  rw [hpairs hnone, h hnone]

/-- The end of a clause leaves no pairs. -/
theorem Tidy.endClause (h : c.Tidy) (hend : c.endClause.result = .ok c') : c'.pairs = {} := by
  unfold Cursor.endClause at hend
  split at hend
  · rename_i hnone
    simp only [Attempt.result, Except.ok.injEq] at hend
    rw [← hend]
    exact h hnone
  · split at hend
    · simp [Attempt.result] at hend
    · simp only [Attempt.result] at hend
      split at hend
      · simp only [Except.ok.injEq] at hend
        rw [← hend]
      · cases hend

theorem step_identifier (c : Cursor) (name : String) :
    (c.step (.token ⟨.identifier, .str name⟩)).result =
      c.endClause.result >>= fun c => .ok (c.openClause (.ofName name)) := by
  simp only [step, identifier, Token.string]
  cases h : c.endClause.error with
  | none => simp [Attempt.result, h, bind, Except.bind]
  | some e => simp [Attempt.result, h, bind, Except.bind]

end Cursor

/-! ## Walks -/

/-- The cursor at the start of a clause. -/
def Query.openClause (q : Query) (identifier : Identifier) : Cursor := Cursor.openClause { query := q } identifier

/-- What one clause makes of a query. -/
def Query.readClause (q : Query) (s : Segment) : Except BuildError Query := (q.openClause s.identifier).finish s.nodes

namespace Cursor

variable {c : Cursor}

/-- When a cursor holds no pairs, a clause opens as from a fresh start. -/
theorem openClause_eq (h : c.pairs = {}) (identifier : Identifier) :
    c.openClause identifier = c.query.openClause identifier := by
  simp [openClause, Query.openClause, h]

/-- A run ends the clause it starts in, and then reads clause after clause. -/
theorem finish_eq_cut (h : c.Tidy) (nodes : List Node) :
    c.finish nodes = c.finish (Group.cut nodes).1 >>= fun q => (Group.cut nodes).2.foldlM Query.readClause q := by
  induction nodes generalizing c with
  | nil => simp [Group.cut]
  | cons node rest ih =>
    cases hn : node.identifier? with
    | none =>
      simp only [Group.cut, hn]
      rw [finish_cons, finish_cons, bind_assoc]
      exact bind_congr_ok fun c' hc' => ih (h.step hn hc')
    | some identifier =>
      obtain ⟨name, rfl, rfl⟩ := Node.eq_of_identifier? hn
      simp only [Group.cut, hn]
      rw [finish_cons, step_identifier, finish_nil, bind_assoc, bind_assoc]
      refine bind_congr_ok fun c' hc' => ?_
      have hp : c'.pairs = {} := h.endClause hc'
      show (c'.openClause _).finish rest = _
      rw [openClause_eq hp, ih (fun _ => rfl)]
      simp only [pure_bind, List.foldlM_cons]
      rfl

end Cursor

/-- Nodes in front of the first identifier are refused. -/
theorem cut_fst_of_finish {q q' : Query} {nodes : List Node}
    (h : ({ query := q } : Cursor).finish (Group.cut nodes).1 = .ok q') : (Group.cut nodes).1 = [] ∧ q' = q := by
  cases nodes with
  | nil => exact ⟨rfl, by cases h; rfl⟩
  | cons node rest =>
    cases hn : node.identifier? with
    | none =>
      simp only [Group.cut, hn] at h
      rw [Cursor.finish_cons, bind_eq_ok] at h
      obtain ⟨c, hc, _⟩ := h
      exact absurd hc (Cursor.step_scanning rfl hn)
    | some identifier =>
      simp only [Group.cut, hn] at h
      exact ⟨by simp [Group.cut, hn], by cases h; rfl⟩

/-- A group that opens with an identifier, read as one clause. -/
theorem Query.walk_clause (q : Query) (name : String) (nodes : List Node) :
    q.walk (.token ⟨.identifier, .str name⟩ :: nodes) = q.readClause ⟨.ofName name, nodes⟩ := by
  show ({ query := q } : Cursor).finish (.token ⟨.identifier, .str name⟩ :: nodes) = _
  rw [Cursor.finish_cons, Cursor.step_identifier]
  rfl

theorem walk_eq (q : Query) (nodes : Group) :
    q.walk nodes = ({ query := q } : Cursor).finish (Group.cut nodes).1 >>= fun q =>
      (Group.cut nodes).2.foldlM Query.readClause q :=
  Cursor.finish_eq_cut (fun _ => rfl) nodes

/-- **Walking a group** is reading its clauses one after the other, if the group starts with an identifier. -/
theorem walk_eq_ok_iff {q q' : Query} {nodes : Group} :
    q.walk nodes = .ok q' ↔ (Group.cut nodes).1 = [] ∧ (Group.cut nodes).2.foldlM Query.readClause q = .ok q' := by
  rw [walk_eq, bind_eq_ok]
  constructor
  · rintro ⟨q₁, h₁, h₂⟩
    obtain ⟨hnil, rfl⟩ := cut_fst_of_finish h₁
    exact ⟨hnil, h₂⟩
  · rintro ⟨hnil, h₂⟩
    exact ⟨q, by rw [hnil]; rfl, h₂⟩

/-- **Compiling a tree** is reading its clauses one after the other. -/
theorem readClauses_of_compile {dialect : Dialect} {tree : Tree} {q : Query} (h : compile dialect tree = .ok q) :
    tree.segments.foldlM Query.readClause (.empty dialect) = .ok q := by
  have run : ∀ (groups : List Group) (q₀ : Query), groups.foldlM Query.walk q₀ = .ok q →
      (groups.flatMap fun g => (Group.cut g).2).foldlM Query.readClause q₀ = .ok q := by
    intro groups
    induction groups with
    | nil => exact fun _ h => h
    | cons g groups ih =>
      intro q₀ h
      rw [List.foldlM_cons, bind_eq_ok] at h
      obtain ⟨q₁, hw, hrest⟩ := h
      rw [List.flatMap_cons, List.foldlM_append, bind_eq_ok]
      exact ⟨q₁, (walk_eq_ok_iff.mp hw).2, ih q₁ hrest⟩
  exact run tree.groups _ h

/-- Every clause of a compiled tree has been read. -/
theorem readClause_of_compile {dialect : Dialect} {tree : Tree} {q : Query} (h : compile dialect tree = .ok q)
    {s : Segment} (hs : s ∈ tree.segments) : ∃ q₀ q₁ : Query, q₀.readClause s = .ok q₁ := by
  obtain ⟨before, after, hsegments⟩ := List.append_of_mem hs
  have hread := readClauses_of_compile h
  rw [hsegments, List.foldlM_append, bind_eq_ok] at hread
  obtain ⟨q₀, _, hread⟩ := hread
  rw [List.foldlM_cons, bind_eq_ok] at hread
  obtain ⟨q₁, hs, _⟩ := hread
  exact ⟨q₀, q₁, hs⟩

end DocQuery
