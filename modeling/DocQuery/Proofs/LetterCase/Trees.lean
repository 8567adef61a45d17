import DocQuery.Proofs.LetterCase.Words
import DocQuery.Proofs.Simulation

/-!
# Trees in any case

`Tree.capitalized` writes the words of a tree in capitals: its identifiers, its condition words, the operator LIKE,
and the directions of its sort clauses, at every depth. Two trees are the same but for the case of such words exactly if
they are the same tree in capitals.

What a cursor holds keeps some spellings: the operator of a draft, the name of an ignored clause, the directions that
wait for the end of a sort clause. `Cursor.capitalized` writes these in capitals too, and then takes the nodes in
capitals as the cursor takes the nodes (`Cursor.step_capitalized`). None of it ever reaches the query, so a tree and
its capitals compile alike (`compile_alike`).
-/

namespace DocQuery

/-! ## Capitals -/

def Token.capitalized (sorting : Bool) (t : Token) : Token :=
  { t with value := t.value.mapString (t.kind.capitals sorting) }

/-- Whether what follows a node stands in a sort clause. Only an identifier ends the clause in front of it. -/
def Node.sorts (sorting : Bool) (node : Node) : Bool := node.identifier?.elim sorting (· == .orderBy)

mutual

/-- The node with its words in capitals. It stands in a sort clause if `sorting`. -/
def Node.capitalized (sorting : Bool) : Node → Node
  | .token t => .token (t.capitalized sorting)
  | .group nodes => .group (Node.allCapitalized sorting nodes)

def Node.allCapitalized (sorting : Bool) : List Node → List Node
  | [] => []
  | node :: rest => node.capitalized sorting :: Node.allCapitalized (node.sorts sorting) rest

end

/-- The tree with its words in capitals. -/
def Tree.capitalized (tree : Tree) : Tree := ⟨tree.groups.map (Node.allCapitalized false)⟩

theorem Token.string_capitalized (sorting : Bool) (t : Token) :
    Alike (t.kind.capitals sorting) t.string (t.capitalized sorting).string := by
  obtain ⟨kind, value⟩ := t
  cases value with
  | str s => exact .ok rfl
  | _ => exact .error rfl

theorem Token.capitalized_value (value : Json) : Token.capitalized false ⟨.value, value⟩ = ⟨.value, value⟩ :=
  congrArg (Token.mk .value) value.mapString_id

/-- What does not depend on the payloads is the same in capitals. -/
theorem Node.map_allCapitalized {β : Type} {f : Node → β} (hf : ∀ sorting node, f (node.capitalized sorting) = f node)
    (sorting : Bool) (nodes : List Node) : (Node.allCapitalized sorting nodes).map f = nodes.map f := by
  induction nodes generalizing sorting with
  | nil => rfl
  | cons node rest ih => rw [allCapitalized, List.map_cons, List.map_cons, hf, ih]

/-! ## Groups among conditions -/

namespace Grouping

variable {conjoined : Bool} {g g' : Gathered} {node : Node}

theorem isConjoined_capitalized (sorting : Bool) (nodes : List Node) :
    isConjoined (Node.allCapitalized sorting nodes) = isConjoined nodes := by
  have hvalue (sorting : Bool) (node : Node) : isValue (node.capitalized sorting) = isValue node := by
    cases node <;> rfl
  have hgroup (sorting : Bool) (node : Node) : isGroup (node.capitalized sorting) = isGroup node := by
    cases node <;> rfl
  have hcount (nodes : List Node) : nodes.countP isValue = (nodes.map isValue).countP id := by
    rw [List.countP_map]
    rfl
  have hany (nodes : List Node) : nodes.any isGroup = (nodes.map isGroup).any id := by
    rw [List.any_map]
    rfl
  simp only [isConjoined, hcount, hany, Node.map_allCapitalized hvalue, Node.map_allCapitalized hgroup]

/-- What has been read of a group, with its operators in capitals. -/
def Gathered.capitalized (g : Gathered) : Gathered :=
  { g with draft := g.draft.capitalized, members := g.members.map Expr.capitalized }

theorem Gathered.condition_capitalized (g : Gathered) (word : String) :
    g.capitalized.condition word.toUpper = (g.condition word).capitalized := by
  unfold Gathered.condition
  rw [Marker.ofCondition?_toUpper, Combinator.ofCondition?_toUpper]
  split <;> rfl

theorem Gathered.token_capitalized (conjoined : Bool) (g : Gathered) (t : Token) :
    Alike Gathered.capitalized (g.token conjoined t) (g.capitalized.token conjoined (t.capitalized false)) := by
  have hstring := t.string_capitalized false
  obtain ⟨kind, value⟩ := t
  cases kind with
  | key =>
    refine hstring.bind fun key => .ok ?_
    show { g.capitalized with draft := g.draft.capitalized.setKey key } = _
    rw [Draft.setKey_capitalized]
    rfl
  | operator =>
    exact hstring.bind fun operator => (g.draft.setOperator_capitalized operator).bind fun draft => .ok rfl
  | value =>
    rw [Token.capitalized_value]
    refine (g.draft.complete_capitalized value).bind fun completed => ?_
    obtain ⟨clause, draft⟩ := completed
    refine .ok ?_
    cases conjoined <;> simp [Gathered.capitalized, Expr.capitalized, Clause.mark, Clause.capitalized]
  | condition => exact hstring.bind fun word => .ok (g.condition_capitalized word)
  | identifier =>
    refine hstring.bind fun name => ?_
    simp only [TokenKind.capitals, Identifier.ofName_toUpper, Identifier.isJoin_capitalized]
    split
    · exact .error rfl
    · exact .error rfl

theorem Gathered.close_capitalized (g : Gathered) (inherited : List Marker) :
    Alike (Option.map Expr.capitalized) (g.close inherited) (g.capitalized.close inherited) := by
  obtain ⟨draft, combinator, members⟩ := g
  rcases members with _ | ⟨member, _ | ⟨second, rest⟩⟩
  · exact .ok rfl
  · exact (member.inherit_capitalized inherited).bind fun e => .ok rfl
  · have hgroup := (Expr.group (combinator.getD .or) (member :: second :: rest)).inherit_capitalized inherited
    rw [Expr.capitalized, Expr.allCapitalized_eq_map] at hgroup
    exact hgroup.bind fun e => .ok rfl

/-- A group that is read past a node has no identifier there, so no sort clause opens in it. -/
theorem sorts_of_gatherNode (h : gatherNode conjoined g node = .ok g') : node.sorts false = false := by
  cases hi : node.identifier? with
  | none => rw [Node.sorts, hi]; rfl
  | some i =>
    obtain ⟨name, rfl, _⟩ := Node.eq_of_identifier? hi
    simp only [gatherNode, Gathered.token, Token.string, bind_eq_ok] at h
    obtain ⟨_, _, h⟩ := h
    split at h <;> cases h

mutual

theorem gatherNode_capitalized (conjoined : Bool) (g : Gathered) (node : Node) :
    Alike Gathered.capitalized (gatherNode conjoined g node)
      (gatherNode conjoined g.capitalized (node.capitalized false)) := by
  cases node with
  | token t =>
    rw [Node.capitalized, gatherNode, gatherNode]
    exact g.token_capitalized conjoined t
  | group nodes =>
    rw [Node.capitalized, gatherNode, gatherNode, isConjoined_capitalized]
    refine (gather_capitalized (isConjoined nodes) {} nodes).bind fun inner =>
      (inner.close_capitalized g.draft.pendingMarkers).bind fun member => .ok ?_
    cases member <;> simp [Gathered.capitalized] <;> rfl

theorem gather_capitalized (conjoined : Bool) (g : Gathered) (nodes : List Node) :
    Alike Gathered.capitalized (gather conjoined g nodes)
      (gather conjoined g.capitalized (Node.allCapitalized false nodes)) := by
  cases nodes with
  | nil => exact .ok rfl
  | cons node rest =>
    rw [Node.allCapitalized, gather, gather]
    refine (gatherNode_capitalized conjoined g node).bind_ok fun g' hg => ?_
    rw [sorts_of_gatherNode hg]
    exact gather_capitalized conjoined g' rest

end

theorem reduce_capitalized (inherited : List Marker) (nodes : List Node) :
    Alike (Option.map Expr.capitalized) (reduce inherited nodes)
      (reduce inherited (Node.allCapitalized false nodes)) := by
  rw [reduce, reduce, isConjoined_capitalized]
  exact (gather_capitalized (isConjoined nodes) {} nodes).bind fun g => g.close_capitalized inherited

end Grouping

namespace Query

theorem apply_capitalized (q : Query) (family : Family) (modifier : Modifier) (c : Condition) :
    q.apply family modifier c.capitalized = q.apply family modifier c := by
  rw [apply, apply, Filter.apply_capitalized]

/-- **An array in capitals does the same to a query.** -/
theorem applyGroup_capitalized (q : Query) (inherited : List Marker) (outer : Option Combinator)
    (nodes : List Node) :
    Alike id (q.applyGroup inherited outer nodes) (q.applyGroup inherited outer (Node.allCapitalized false nodes)) := by
  refine (Grouping.reduce_capitalized inherited nodes).bind fun reduced => ?_
  cases reduced with
  | none => exact .ok rfl
  | some e =>
    show Alike id (q.applyExpr (outer.getD .or) e) (q.applyExpr (outer.getD .or) e.capitalized)
    rw [applyExpr, applyExpr, Filter.addExpr_capitalized]
    exact .refl _

end Query

/-! ## Pairs -/

/-- A complete pair, with its direction in capitals if it stands in a sort clause. -/
def Pairs.capitalize (sorting : Bool) (pair : String × Json) : String × Json :=
  (pair.1, pair.2.mapString (TokenKind.capitals sorting .value))

def Pairs.capitalized (sorting : Bool) (p : Pairs) : Pairs :=
  { p with complete := p.complete.map (capitalize sorting) }

namespace Pairs

theorem map_capitalize_false (pairs : List (String × Json)) : pairs.map (capitalize false) = pairs := by
  have hid : capitalize false = id := by
    funext pair
    exact Prod.ext rfl pair.2.mapString_id
  rw [hid, List.map_id]

theorem setValue_capitalized (sorting : Bool) (p : Pairs) (value : Json) :
    Alike (capitalized sorting) (p.setValue value)
      ((p.capitalized sorting).setValue (value.mapString (TokenKind.capitals sorting .value))) := by
  obtain ⟨key, complete⟩ := p
  cases key with
  | none => exact .error rfl
  | some key => exact .ok (by simp [capitalized, capitalize])

theorem close_capitalized (sorting : Bool) (p : Pairs) :
    Alike (List.map (capitalize sorting)) p.close (p.capitalized sorting).close := by
  obtain ⟨key, complete⟩ := p
  cases key with
  | none => exact .ok rfl
  | some key => exact .error rfl

end Pairs

namespace Query

theorem sort_capitalized (q : Query) (attr : String) (direction : Json) :
    Alike id (q.sort attr direction) (q.sort attr (direction.mapString String.toUpper)) := by
  unfold sort Direction.read
  rw [Direction.ofJson?_toUpper]
  cases Direction.ofJson? direction with
  | none => exact .error rfl
  | some d => exact .ok rfl

theorem sortAll_capitalized (q : Query) (pairs : List (String × Json)) :
    Alike id (q.sortAll pairs).result (q.sortAll (pairs.map (Pairs.capitalize true))).result := by
  induction pairs generalizing q with
  | nil => exact .ok rfl
  | cons pair rest ih =>
    obtain ⟨attr, direction⟩ := pair
    rw [List.map_cons, Pairs.capitalize, result_sortAll_cons, result_sortAll_cons]
    exact (q.sort_capitalized attr direction).bind fun q' => ih q'

/-- Capitals are told from other spellings by no clause that collects pairs. -/
theorem flush_capitalized {scope : Scope} {clause : Identifier} (hs : scope.pairClause? = some clause) (q : Query)
    (pairs : List (String × Json)) :
    Alike id (q.flush clause pairs).result
      (q.flush clause (pairs.map (Pairs.capitalize (scope == .sortPairs)))).result := by
  cases scope with
  | sortPairs =>
    cases hs
    exact q.sortAll_capitalized pairs
  | insertPairs | updatePairs =>
    show Alike id _ (q.flush clause (pairs.map (Pairs.capitalize false))).result
    rw [Pairs.map_capitalize_false]
    exact .refl _
  | _ => cases hs

end Query

/-! ## Cursors -/

/-- The scope with the name of an ignored clause in capitals. -/
def Scope.capitalized : Scope → Scope
  | .ignored i => .ignored i.capitalized
  | scope => scope

theorem Scope.pairClause?_capitalized (scope : Scope) : scope.capitalized.pairClause? = scope.pairClause? := by
  cases scope <;> rfl

namespace Cursor

variable {c : Cursor} {node : Node}

def sorting (c : Cursor) : Bool := c.scope == .sortPairs

/-- The cursor with the words it holds in capitals. -/
def capitalized (c : Cursor) : Cursor :=
  { c with
    scope := c.scope.capitalized
    draft := c.draft.capitalized
    pairs := c.pairs.capitalized c.sorting }

theorem pairs_capitalized (h : c.pairs = {}) : c.capitalized.pairs = {} := by
  rw [capitalized, h]
  rfl

theorem endClause_capitalized (c : Cursor) : Alike capitalized c.endClause.result c.capitalized.endClause.result := by
  have hscope := c.scope.pairClause?_capitalized
  cases hs : c.scope.pairClause? with
  | none =>
    unfold endClause
    rw [hs, show c.capitalized.scope.pairClause? = none from hscope.trans hs]
    exact .ok rfl
  | some clause =>
    rw [result_endClause hs, result_endClause (c := c.capitalized) (hscope.trans hs)]
    refine (c.pairs.close_capitalized c.sorting).bind fun pairs => ?_
    exact (Query.flush_capitalized hs c.query pairs).map fun q => rfl

/-! ## Nodes -/

theorem conditionWord_capitalized (c : Cursor) (word : String) :
    c.capitalized.conditionWord word.toUpper = (c.conditionWord word).capitalized := by
  unfold conditionWord
  rw [Marker.ofCondition?_toUpper, Combinator.ofCondition?_toUpper]
  split <;> rfl

theorem condition_capitalized (c : Cursor) (value : Json) :
    Alike capitalized (c.condition ⟨.condition, value⟩).result
      (c.capitalized.condition (Token.capitalized c.sorting ⟨.condition, value⟩)).result := by
  have hstring := Token.string_capitalized c.sorting ⟨.condition, value⟩
  obtain ⟨scope, modifiers, combinator, draft, pairs, q⟩ := c
  cases scope with
  | conditions => exact .ofExcept (hstring.map fun word => conditionWord_capitalized _ word)
  | ignored i => exact .ok rfl
  | _ => exact .error rfl

theorem conditionValue_capitalized (c : Cursor) (value : Json) :
    Alike capitalized (c.conditionValue value).result (c.capitalized.conditionValue value).result := by
  rw [result_conditionValue, result_conditionValue]
  refine (c.draft.complete_capitalized value).bind fun completed => ?_
  show Alike capitalized _ ((c.query.apply .root c.modifiers.resolved completed.1.condition.capitalized).map _)
  rw [Query.apply_capitalized]
  exact .map_same _ fun q => rfl

/-- Among conditions no value is a direction. -/
theorem conditionOperand_capitalized (c : Cursor) {t : Token} (hi : t.kind ≠ .identifier) (hc : t.kind ≠ .condition) :
    Alike capitalized (c.conditionOperand t).result
      (c.capitalized.conditionOperand (t.capitalized false)).result := by
  have hstring := t.string_capitalized false
  obtain ⟨kind, value⟩ := t
  cases kind with
  | key =>
    refine .ofExcept (hstring.map fun key => ?_)
    show { c.capitalized with draft := c.draft.capitalized.setKey key } = _
    rw [Draft.setKey_capitalized]
    rfl
  | operator =>
    rw [conditionOperand_operator, Token.capitalized, conditionOperand_operator]
    refine .ofExcept (hstring.bind fun operator => ?_)
    exact (c.draft.setOperator_capitalized operator).bind fun draft => .ok rfl
  | value =>
    rw [Token.capitalized_value]
    exact c.conditionValue_capitalized value
  | identifier => exact absurd rfl hi
  | condition => exact absurd rfl hc

/-- Among pairs a value is a direction if the clause sorts. -/
theorem pairOperand_capitalized (c : Cursor) (t : Token) :
    Alike capitalized (c.pairOperand t).result (c.capitalized.pairOperand (t.capitalized c.sorting)).result := by
  have hstring := t.string_capitalized c.sorting
  obtain ⟨kind, value⟩ := t
  cases kind with
  | key => exact .ofExcept (hstring.map fun key => rfl)
  | value => exact .ofExcept ((c.pairs.setValue_capitalized c.sorting value).map fun pairs => rfl)
  | _ => exact .error rfl

theorem valueOperand_capitalized (c : Cursor) (clause : Identifier) (t : Token) :
    Alike capitalized (c.valueOperand clause t).result
      (c.capitalized.valueOperand clause (t.capitalized false)).result := by
  obtain ⟨kind, value⟩ := t
  cases kind with
  | value =>
    rw [Token.capitalized_value, valueOperand_value, valueOperand_value]
    exact .ofExcept (.map_same (c.query.assign clause value) fun q => rfl)
  | _ => exact .error rfl

theorem operand_capitalized (c : Cursor) {t : Token} (hi : t.kind ≠ .identifier) (hc : t.kind ≠ .condition) :
    Alike capitalized (c.operand t).result (c.capitalized.operand (t.capitalized c.sorting)).result := by
  have hpair := c.pairOperand_capitalized t
  have hcondition := c.conditionOperand_capitalized hi hc
  have hvalue := fun clause => c.valueOperand_capitalized clause t
  obtain ⟨scope, modifiers, combinator, draft, pairs, q⟩ := c
  cases scope with
  | scanning => exact .error rfl
  | ignored i => exact .ok rfl
  | conditions => exact hcondition
  | values clause => exact hvalue clause
  | insertPairs | updatePairs | sortPairs => exact hpair

theorem group_capitalized (c : Cursor) (nodes : List Node) :
    Alike capitalized (c.group nodes).result
      (c.capitalized.group (Node.allCapitalized c.sorting nodes)).result := by
  obtain ⟨scope, modifiers, combinator, draft, pairs, q⟩ := c
  cases scope with
  | conditions =>
    rw [group_conditions rfl, group_conditions rfl]
    exact .ofExcept ((q.applyGroup_capitalized modifiers.markers combinator nodes).map fun q => rfl)
  | ignored i => exact .ok rfl
  | _ => exact .error rfl

/-- **Nodes in capitals are taken alike** by a cursor in capitals. -/
theorem step_capitalized (c : Cursor) (hn : node.identifier? = none) :
    Alike capitalized (c.step node).result (c.capitalized.step (node.capitalized c.sorting)).result := by
  cases node with
  | group nodes =>
    rw [Node.capitalized]
    exact c.group_capitalized nodes
  | token t =>
    obtain ⟨kind, value⟩ := t
    rw [Node.capitalized]
    cases kind with
    | identifier =>
      cases value with
      | str name => cases hn
      | _ => exact .error rfl
    | condition => exact c.condition_capitalized value
    | key | operator | value => exact c.operand_capitalized (by simp) (by simp)

/-! ## Runs -/

theorem openClause_capitalized (q : Query) (i : Identifier) :
    q.openClause i.capitalized = (q.openClause i).capitalized := by
  cases i <;> rfl

theorem sorting_openClause (q : Query) (i : Identifier) : (q.openClause i).sorting = (i == .orderBy) := by
  cases i <;> rfl

/-- **Groups in capitals are walked alike**, from wherever the cursor stands. -/
theorem finish_capitalized (h : c.Tidy) (nodes : List Node) :
    Alike id (c.finish nodes) (c.capitalized.finish (Node.allCapitalized c.sorting nodes)) := by
  induction nodes generalizing c with
  | nil =>
    rw [Node.allCapitalized, finish_nil, finish_nil]
    exact c.endClause_capitalized.bind fun c' => .ok rfl
  | cons node rest ih =>
    rw [Node.allCapitalized, finish_cons, finish_cons]
    cases hn : node.identifier? with
    | none =>
      refine (c.step_capitalized hn).bind_ok fun c' hstep => ?_
      have hsorts : node.sorts c.sorting = c'.sorting := by
        rw [Node.sorts, hn, sorting, sorting, (step_frame hn hstep).1]
        rfl
      rw [hsorts]
      exact ih (h.step hn hstep)
    | some i =>
      obtain ⟨name, rfl, rfl⟩ := Node.eq_of_identifier? hn
      -- the clause before the identifier leaves no pairs, so its own clause opens as from a fresh start
      show Alike id _ ((c.capitalized.step (.token ⟨.identifier, .str name.toUpper⟩)).result >>= _)
      rw [step_identifier, step_identifier, bind_assoc, bind_assoc]
      refine c.endClause_capitalized.bind_ok fun c' hend => ?_
      have hpairs := h.endClause hend
      show Alike id ((c'.openClause _).finish rest) ((c'.capitalized.openClause _).finish _)
      rw [openClause_eq hpairs, openClause_eq (pairs_capitalized hpairs), Identifier.ofName_toUpper]
      show Alike id _ ((c'.query.openClause (Identifier.ofName name).capitalized).finish
        (Node.allCapitalized (Identifier.ofName name == .orderBy) rest))
      rw [openClause_capitalized, ← sorting_openClause c'.query]
      exact ih fun _ => rfl

end Cursor

/-! ## Trees -/

theorem Query.walk_capitalized (q : Query) (nodes : Group) :
    Alike id (q.walk nodes) (q.walk (Node.allCapitalized false nodes)) :=
  Cursor.finish_capitalized (c := { query := q }) (fun _ => rfl) nodes

theorem Query.walkAll_capitalized (q : Query) (groups : List Group) :
    Alike id (groups.foldlM Query.walk q) ((groups.map (Node.allCapitalized false)).foldlM Query.walk q) := by
  induction groups generalizing q with
  | nil => exact .ok rfl
  | cons g groups ih =>
    rw [List.map_cons, List.foldlM_cons, List.foldlM_cons]
    exact (q.walk_capitalized g).bind fun q' => ih q'

/-- A tree compiles as its capitals do. -/
theorem compile_alike (dialect : Dialect) (tree : Tree) :
    Alike id (compile dialect tree) (compile dialect tree.capitalized) :=
  Query.walkAll_capitalized (.empty dialect) tree.groups

/-- **Words are read in any case.** Two trees that are the same in capitals compile to the same query, or both fail,
with errors of one kind. -/
theorem compile_any_case (dialect : Dialect) {tree tree' : Tree} (h : tree.capitalized = tree'.capitalized) :
    (compile dialect tree).mapError BuildError.kind = (compile dialect tree').mapError BuildError.kind := by
  rw [← (compile_alike dialect tree).mapError_eq, ← (compile_alike dialect tree').mapError_eq, h]

/-- A search with words of every sort, left open, and with values that are no words. -/
def Tree.search (from_ where_ and_ not_ like order direction : String) : Tree :=
  ⟨[[.token ⟨.identifier, .str from_⟩, .token ⟨.value, .str "users"⟩, .token ⟨.identifier, .str where_⟩,
      .group [.token ⟨.key, .str "role"⟩, .token ⟨.value, .str "admin"⟩, .token ⟨.condition, .str and_⟩,
        .group [.token ⟨.condition, .str not_⟩, .token ⟨.key, .str "name"⟩, .token ⟨.operator, .str like⟩,
          .token ⟨.value, .str "al%"⟩]]],
    [.token ⟨.identifier, .str order⟩, .token ⟨.key, .str "name"⟩, .token ⟨.value, .str direction⟩]]⟩

theorem Tree.capitalized_search {from_ where_ and_ not_ like order direction : String}
    (h : [from_, where_, and_, not_, like, order, direction].map String.toUpper =
      ["FROM", "WHERE", "AND", "NOT", "LIKE", "ORDERBY", "DESC"]) :
    (search from_ where_ and_ not_ like order direction).capitalized =
      search "FROM" "WHERE" "AND" "NOT" "LIKE" "ORDERBY" "DESC" := by
  simp only [List.map_cons, List.map_nil, List.cons.injEq, and_true] at h
  obtain ⟨hfrom, hwhere, hand, hnot, hlike, horder, hdirection⟩ := h
  have hisLike : Operator.isLike like = true := by
    rw [← Operator.isLike_toUpper, hlike]
    decide +kernel
  simp [search, capitalized, Node.allCapitalized, Node.capitalized, Node.sorts, Node.identifier?, Token.capitalized,
    TokenKind.capitals, Operator.capitals, Json.mapString, Identifier.ofName, hfrom, hwhere, hand, hnot, hlike, horder,
    hdirection, hisLike]

theorem compile_any_case_search :
    (Tree.search "from" "Where" "AND" "noT" "like" "orderBy" "DESC").capitalized =
      (Tree.search "FROM" "WHERE" "and" "Not" "Like" "ORDERBY" "Desc").capitalized ∧
    (compile {} (Tree.search "from" "Where" "AND" "noT" "like" "orderBy" "DESC")).mapError BuildError.kind =
      (compile {} (Tree.search "FROM" "WHERE" "and" "Not" "Like" "ORDERBY" "Desc")).mapError BuildError.kind ∧
    (compile {} (Tree.search "from" "Where" "AND" "noT" "like" "orderBy" "DESC")).toOption.map
        (fun q => (q.collection, q.filter, q.order)) =
      some ("users", [("$or", .arr [.obj [("role", .str "admin"),
        ("name", .single "$not" (.single "$regex" (.str "^al")))]])], [("name", .descending)]) := by
  have hcapitals : (Tree.search "from" "Where" "AND" "noT" "like" "orderBy" "DESC").capitalized =
      (Tree.search "FROM" "WHERE" "and" "Not" "Like" "ORDERBY" "Desc").capitalized :=
    (Tree.capitalized_search (by decide +kernel)).trans (Tree.capitalized_search (by decide +kernel)).symm
  exact ⟨hcapitals, compile_any_case {} hcapitals, by decide +kernel⟩

end DocQuery
