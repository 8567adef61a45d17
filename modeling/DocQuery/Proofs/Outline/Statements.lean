import DocQuery.Proofs.Reading
import DocQuery.Proofs.Calls

/-!
# What the clauses of a tree state

The outline of a query is all of it but its filter and its dialect. A clause makes *statements* on the outline: a delete
clause by its name, a clause of pairs when it ends, and any other by each of its values. They are read off the nodes
alone (`Segment.statements`, `Tree.statements`).

`outline_of_compile`: the outline of a compiled tree is what its statements make of the empty query, one after the other.
-/

namespace DocQuery

/-! ## Statements -/

inductive Statement where
  | delete
  | insert (pairs : List (String × Json))
  | update (pairs : List (String × Json))
  | sort (attr : String) (direction : Direction)
  | select (names : List String)
  | collection (name : String)
  | count (names : List String)
  /-- The distinct values of one attribute. -/
  | distinct (name : String)
  /-- The rows are grouped by at least one attribute. -/
  | group (first : String) (rest : List String)
  | limit (rows : Nat)
  | skip (rows : Nat)

/-- What a value states in the clause of an identifier. -/
def Statement.ofValue? (clause : Identifier) (value : Json) : Option Statement :=
  match clause with
  | .select => some (.select value.names)
  | .from_ | .into | .using_ => value.collectionName?.map .collection
  | .count => some (.count value.countedNames)
  | .distinct =>
    match value.names with
    | [] => none
    | [name] => some (.distinct name)
    | first :: rest => some (.group first rest)
  | .groupBy =>
    match value.names with
    | [] => none
    | first :: rest => some (.group first rest)
  | .limit => value.nat?.map .limit
  | .skip | .offset => value.nat?.map .skip
  | _ => none

def Node.statement? (clause : Identifier) : Node → Option Statement
  | .token ⟨.value, value⟩ => Statement.ofValue? clause value
  | _ => none

/-- The pairs in a clause: each key that a value follows. -/
def Group.pairs : List Node → List (String × Json)
  | .token ⟨.key, .str key⟩ :: .token ⟨.value, value⟩ :: rest => (key, value) :: Group.pairs rest
  | _ :: rest => Group.pairs rest
  | [] => []

def Segment.statements (s : Segment) : List Statement :=
  match s.identifier with
  | .delete => [.delete]
  | .insert => [.insert (Group.pairs s.nodes)]
  | .update => [.update (Group.pairs s.nodes)]
  | .orderBy => (Pairs.directions (Group.pairs s.nodes)).map fun p => .sort p.1 p.2
  | clause => s.nodes.filterMap (Node.statement? clause)

/-- The statements of all clauses, in the order of the document. -/
def Tree.statements (tree : Tree) : List Statement := tree.segments.flatMap Segment.statements

/-! ## Outlines -/

namespace Query

variable {q q' : Query}

/-- The query without its filter and its dialect. -/
def outline (q : Query) : Query := { q with dialect := {}, filter := [] }

/-- What a statement makes of a query. -/
def say (q : Query) : Statement → Query
  | .delete => q.delete
  | .insert pairs => q.insert (Pairs.document pairs)
  | .update pairs => q.update (Pairs.document pairs)
  | .sort attr direction => { q with order := q.order.insert attr direction }
  | .select names => q.select names
  | .collection name => q.setCollection name
  | .count names => { q.setKind .count with grouping := q.grouping ++ names }
  | .distinct name => { q.setKind .distinct with key := some name }
  | .group first rest => { q.setKind .aggregate with stages := q.stages ++ [first :: rest] }
  | .limit rows => q.setLimit rows
  | .skip rows => q.setSkip rows

theorem outline_countBy (q : Query) (attr : String) : (q.countBy attr).outline = q.outline.say (.count [attr]) := by
  unfold countBy
  cases hcount : q.dialect.count <;> simp only [setKind, hcount] <;> rfl

theorem outline_countAll {q₀ : Query} {counted : List String} (h : q.outline = q₀.say (.count counted))
    (names : List String) : (names.foldl countBy q).outline = q₀.say (.count (counted ++ names)) := by
  induction names generalizing q counted with
  | nil => rw [List.append_nil, List.foldl_nil, h]
  | cons name names ih =>
    have hname : (q.countBy name).outline = q₀.say (.count (counted ++ [name])) := by
      rw [outline_countBy, h]
      simp only [say, setKind, List.append_assoc]
    rw [List.foldl_cons, ih hname, List.append_assoc]
    rfl

/-- A value of a clause says what is read off it. -/
theorem outline_assign {i : Identifier} {value : Json} (h : q.assign i value = .ok q') :
    q'.outline = (Statement.ofValue? i value).toList.foldl say q.outline := by
  cases i <;> simp only [assign] at h
  case select =>
    obtain ⟨names, hnames, h⟩ := bind_eq_ok.mp h
    cases h
    simp only [Statement.ofValue?, Payload.names_eq hnames]
    rfl
  case from_ | into | using_ =>
    obtain ⟨name, hname, h⟩ := bind_eq_ok.mp h
    cases h
    simp only [Statement.ofValue?, Payload.collection_eq hname]
    rfl
  case limit | skip | offset =>
    obtain ⟨rows, hrows, h⟩ := bind_eq_ok.mp h
    cases h
    simp only [Statement.ofValue?, Payload.rows_eq hrows]
    rfl
  case count =>
    obtain ⟨names, hnames, h⟩ := bind_eq_ok.mp h
    cases h
    have hrows : q.countRows.outline = q.outline.say (.count []) := by
      simp only [say, List.append_nil]
      rfl
    simp only [Statement.ofValue?, Payload.counted_eq hnames]
    exact outline_countAll hrows names
  case distinct =>
    obtain ⟨names, hnames, h⟩ := bind_eq_ok.mp h
    simp only [Statement.ofValue?, Payload.names_eq hnames]
    rcases names with _ | ⟨first, _ | ⟨second, rest⟩⟩
    · cases h
    · cases h
      rfl
    · cases h
      rfl
  case groupBy =>
    obtain ⟨names, hnames, h⟩ := bind_eq_ok.mp h
    simp only [Statement.ofValue?, Payload.names_eq hnames]
    cases names with
    | nil => cases h
    | cons first rest =>
      cases h
      rfl
  case delete =>
    cases h
    rfl
  all_goals cases h

theorem outline_sort (pairs : List (String × Direction)) (q : Query) :
    (pairs.map fun p => Statement.sort p.1 p.2).foldl say q = { q with order := q.order.insertAll pairs } := by
  induction pairs generalizing q with
  | nil => rfl
  | cons p pairs ih =>
    rw [List.map_cons, List.foldl_cons, ih]
    rfl

end Query

/-! ## Clauses -/

namespace Cursor

variable {c c' : Cursor} {nodes : List Node}

theorem outline_run_conditions (hs : c.scope = .conditions) (hn : ∀ n ∈ nodes, n.identifier? = none)
    (h : c.run nodes = .ok c') : c'.query.outline = c.query.outline := by
  induction nodes generalizing c with
  | nil =>
    cases h
    rfl
  | cons node rest ih =>
    rw [List.forall_mem_cons] at hn
    rw [run_cons, bind_eq_ok] at h
    obtain ⟨c₁, hstep, hrest⟩ := h
    have hs₁ : c₁.scope = .conditions := by rw [(step_frame hn.1 hstep).1, hs]
    rw [ih hs₁ hn.2 hrest]
    cases step_conditions hs hn.1 hstep with
    | array h =>
      obtain ⟨filter, rfl⟩ := Query.exists_filter_of_applyGroup h
      rfl
    | value _ hq =>
      obtain ⟨filter, rfl⟩ := Query.exists_filter_of_apply hq
      rfl
    | word word => rw [query_conditionWord]
    | _ => rfl

theorem outline_run_values {i : Identifier} (hs : c.scope = .values i) (hn : ∀ n ∈ nodes, n.identifier? = none)
    (h : c.run nodes = .ok c') :
    c'.query.outline = (nodes.filterMap (Node.statement? i)).foldl Query.say c.query.outline := by
  induction nodes generalizing c with
  | nil =>
    cases h
    rfl
  | cons node rest ih =>
    rw [List.forall_mem_cons] at hn
    rw [run_cons, bind_eq_ok] at h
    obtain ⟨c₁, hstep, hrest⟩ := h
    obtain ⟨value, q, rfl, hq, rfl⟩ := step_values hs hn.1 hstep
    rw [ih (c := { c with query := q }) hs hn.2 hrest, Query.outline_assign hq, List.filterMap_cons,
      ← List.foldl_append]
    cases hvalue : Statement.ofValue? i value <;> simp only [Node.statement?, hvalue] <;> rfl

/-- The key that waits, as a node. -/
def waitingKey (c : Cursor) : List Node := c.pairs.key.toList.map fun key => .token ⟨.key, .str key⟩

/-- A clause of pairs collects each key that a value follows. -/
theorem complete_run {i : Identifier} (hs : c.scope.pairClause? = some i) (hn : ∀ n ∈ nodes, n.identifier? = none)
    (h : c.run nodes = .ok c') :
    c'.pairs.complete = c.pairs.complete ++ Group.pairs (c.waitingKey ++ nodes) := by
  induction nodes generalizing c with
  | nil =>
    cases h
    cases hkey : c'.pairs.key <;> simp [waitingKey, hkey, Group.pairs]
  | cons node rest ih =>
    rw [List.forall_mem_cons] at hn
    rw [run_cons, bind_eq_ok] at h
    obtain ⟨c₁, hstep, hrest⟩ := h
    rcases step_pairs hs hn.1 hstep with ⟨key, rfl, rfl⟩ | ⟨value, pairs, rfl, hpairs, rfl⟩
    · -- A key that waited gives way, and is in no pair.
      rw [ih (c := { c with pairs := c.pairs.setKey key }) hs hn.2 hrest]
      cases hkey : c.pairs.key <;> simp [waitingKey, hkey, Pairs.setKey, Group.pairs]
    · rw [ih (c := { c with pairs }) hs hn.2 hrest]
      unfold Pairs.setValue at hpairs
      split at hpairs
      · rename_i key hkey
        cases hpairs
        simp [waitingKey, hkey, Group.pairs]
      · cases hpairs

/-- A clause of pairs that ends well has put all its pairs into the query. -/
theorem flush_of_endClause {i : Identifier} (hs : c.scope.pairClause? = some i) (h : c.endClause.result = .ok c') :
    (c.query.flush i c.pairs.complete).result = .ok c'.query := by
  simp only [endClause, hs] at h
  unfold Pairs.close at h
  cases hkey : c.pairs.key with
  | some key =>
    simp only [hkey] at h
    cases h
  | none =>
    simp only [hkey] at h
    generalize c.query.flush i c.pairs.complete = flushed at h ⊢
    obtain ⟨q, error⟩ := flushed
    cases error <;> cases h
    rfl

end Cursor

namespace Query

variable {q q' : Query} {i : Identifier} {nodes : List Node}

/-- The pairs of a clause go into the query together. -/
theorem flush_of_readClause (hs : (Scope.ofIdentifier i).pairClause? = some i)
    (hn : ∀ n ∈ nodes, n.identifier? = none) (h : q.readClause ⟨i, nodes⟩ = .ok q') :
    ((q.openClause i).query.flush i (Group.pairs nodes)).result = .ok q' := by
  obtain ⟨c, hrun, h⟩ := bind_eq_ok.mp h
  obtain ⟨c', hend, h⟩ := bind_eq_ok.mp h
  cases h
  obtain ⟨hscope, hquery⟩ := Cursor.run_pairs_frame hs hn hrun
  have hcomplete : c.pairs.complete = Group.pairs nodes := Cursor.complete_run hs hn hrun
  have hflush := Cursor.flush_of_endClause (by rw [hscope]; exact hs) hend
  rwa [hquery, hcomplete] at hflush

/-- Elsewhere, nothing happens at the end of a clause. -/
theorem run_of_readClause (hs : (Scope.ofIdentifier i).pairClause? = none) (hn : ∀ n ∈ nodes, n.identifier? = none)
    (h : q.readClause ⟨i, nodes⟩ = .ok q') : ∃ c, (q.openClause i).run nodes = .ok c ∧ c.query = q' := by
  obtain ⟨c, hrun, h⟩ := bind_eq_ok.mp h
  obtain ⟨c', hend, h⟩ := bind_eq_ok.mp h
  cases h
  have hscope : c.scope = .ofIdentifier i := Cursor.scope_run hn hrun
  simp only [Cursor.endClause, hscope, hs] at hend
  cases hend
  exact ⟨c, hrun, rfl⟩

end Query

theorem Node.statement?_eq_none {i : Identifier} (h : ∀ value, Statement.ofValue? i value = none) (node : Node) :
    node.statement? i = none := by
  unfold Node.statement?
  split
  · exact h _
  · rfl

/-- What one clause makes of the outline. -/
theorem outline_of_readClause {q q' : Query} {s : Segment} (hn : ∀ n ∈ s.nodes, n.identifier? = none)
    (h : q.readClause s = .ok q') : q'.outline = s.statements.foldl Query.say q.outline := by
  obtain ⟨identifier, nodes⟩ := s
  have hsilent : (∀ value, Statement.ofValue? identifier value = none) →
      nodes.filterMap (Node.statement? identifier) = [] := fun hnone =>
    List.filterMap_eq_nil_iff.mpr fun n _ => Node.statement?_eq_none hnone n
  -- The scope that the identifier opens decides which run it is.
  cases identifier
  case insert | update =>
    have hflush := Query.flush_of_readClause rfl hn h
    simp only [Query.flush, Attempt.result, Except.ok.injEq] at hflush
    rw [← hflush]
    rfl
  case orderBy =>
    have hflush := Query.flush_of_readClause rfl hn h
    rcases Pairs.directed_or_exists (Group.pairs nodes) with hall | ⟨before, attr, direction, after, hp, hbefore, hnone⟩
    · simp only [Query.flush, Query.sortAll_of_directed _ hall, Attempt.result, Except.ok.injEq] at hflush
      rw [← hflush]
      simp only [Segment.statements, Query.outline_sort]
      rfl
    · simp only [Query.flush, hp, Query.sortAll_append _ hbefore, Query.sortAll_of_undirected _ hnone] at hflush
      cases hflush
  all_goals obtain ⟨c, hrun, rfl⟩ := Query.run_of_readClause rfl hn h
  case where_ =>
    rw [Cursor.outline_run_conditions rfl hn hrun]
    simp only [Segment.statements, hsilent fun _ => rfl]
    rfl
  case join | other =>
    cases Cursor.run_ignored rfl hn hrun
    simp only [Segment.statements, hsilent fun _ => rfl]
    rfl
  case delete =>
    rw [Cursor.outline_run_values rfl hn hrun, hsilent fun _ => rfl]
    rfl
  all_goals
    rw [Cursor.outline_run_values rfl hn hrun]
    rfl

/-- **The outline of a compiled tree** is what its statements make of the empty query. -/
theorem outline_of_compile {dialect : Dialect} {tree : Tree} {q : Query} (h : compile dialect tree = .ok q) :
    q.outline = tree.statements.foldl Query.say {} := by
  refine compile_induction (motive := fun q₀ segments =>
    q.outline = (segments.flatMap Segment.statements).foldl Query.say q₀.outline) h rfl ?_
  intro q₀ q₁ s segments hn hs ih
  rw [ih, outline_of_readClause hn hs, List.flatMap_cons, List.foldl_append]

end DocQuery
