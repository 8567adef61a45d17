import DocQuery.Proofs.Payloads
import DocQuery.Proofs.Demand

/-!
# What the conditions of a tree say

The parts of a tree are its conditions as they stand in the document: a *leaf* for each value at the top of a filter
clause, an *array* for each group there with the combinator that joins it and the markers in front of it, and a leaf
for each counted attribute if counting means that it exists (`Tree.parts`). The demand of an array is its boolean
reading (`Group.demand`): values complete leaves, nested arrays are demands of their own, joined by the combinator of
the array around them.

`takesAll_of_compile`: the filter of a compiled tree is what its parts make of the empty filter, one after the other.
-/

namespace DocQuery

/-! ## Arrays -/

/-- The combinator that a word names. -/
def Node.combinator? : Node → Option Combinator
  | .token ⟨.condition, .str word⟩ => Combinator.ofCondition? word
  | _ => none

/-- The combinator of an array: the last that it names, `OR` if it names none. -/
def Group.join (nodes : List Node) : Combinator := (nodes.filterMap Node.combinator?).getLast?.getD .or

/-- The clause in the making after one more node of an array. -/
def Draft.after (d : Draft) : Node → Draft
  | .group _ => {}
  | .token ⟨.key, .str key⟩ => d.setKey key
  | .token ⟨.operator, .str operator⟩ => { d with operator := some operator, done := false }
  | .token ⟨.value, _⟩ => { d with done := true }
  | .token ⟨.condition, .str word⟩ =>
    match Marker.ofCondition? word with
    | some .not => .withMarkers [.not]
    | some .inList => d.mark .inList
    | _ => d
  | .token _ => d

/-- The leaf that a token completes. -/
def Draft.leaf? (d : Draft) (modifiers : Modifiers) : Token → Option Leaf
  | ⟨.value, value⟩ => d.key.map fun key => ⟨⟨key, d.operator, value⟩, modifiers.resolved⟩
  | _ => none

mutual

/-- What a node of an array asks for, after the draft `d`. -/
def Node.demands (join : Combinator) (d : Draft) : Node → List Demand
  | .token t => ((d.leaf? ⟨d.markers⟩ t).map Demand.leaf).toList
  | .group nodes => [(Demand.array join (Group.demands (Group.join nodes) {} nodes)).turn d.pendingMarkers]

def Group.demands (join : Combinator) (d : Draft) : List Node → List Demand
  | [] => []
  | node :: rest => node.demands join d ++ Group.demands join (d.after node) rest

end

/-- The demand of an array that is joined by `join` and has `markers` in front. -/
def Group.demand (join : Combinator) (markers : List Marker) (nodes : List Node) : Demand :=
  (Demand.array join (Group.demands (Group.join nodes) {} nodes)).turn markers

/-! ## Filter clauses -/

/-- A condition of a filter clause as it stands in the document. -/
inductive Part where
  | leaf (l : Leaf)
  | array (join : Combinator) (markers : List Marker) (nodes : List Node)

/-- The boolean reading of a part. -/
def Part.demand : Part → Demand
  | .leaf l => .leaf l
  | .array join markers nodes => Group.demand join markers nodes

/-- What waits in a filter clause for further nodes. -/
structure Reader where
  modifiers : Modifiers := {}
  combinator : Option Combinator := none
  draft : Draft := {}

namespace Reader

/-- A word. Markers wait for a value or an array, and a combinator stays for all arrays that follow. -/
def word (r : Reader) (word : String) : Reader :=
  match Marker.ofCondition? word with
  | some .not => { r with modifiers := r.modifiers.push .not }
  | some .inList => { r with modifiers := r.modifiers.push .inList }
  | _ => { r with combinator := (Combinator.ofCondition? word).or r.combinator }

def after (r : Reader) : Node → Reader
  | .group _ => { r with modifiers := {}, draft := {} }
  | .token ⟨.key, .str key⟩ => { r with draft := r.draft.setKey key }
  | .token ⟨.operator, .str operator⟩ => { r with draft := { r.draft with operator := some operator, done := false } }
  | .token ⟨.value, _⟩ => { r with modifiers := {}, draft := { r.draft with done := true } }
  | .token ⟨.condition, .str word⟩ => r.word word
  | .token _ => r

def part? (r : Reader) : Node → Option Part
  | .group nodes => some (.array (r.combinator.getD .or) r.modifiers.markers nodes)
  | .token t => (r.draft.leaf? r.modifiers t).map .leaf

def parts (r : Reader) : List Node → List Part
  | [] => []
  | node :: rest => (r.part? node).toList ++ (r.after node).parts rest

theorem parts_append (r : Reader) (xs ys : List Node) :
    r.parts (xs ++ ys) = r.parts xs ++ (xs.foldl after r).parts ys := by
  induction xs generalizing r with
  | nil => rfl
  | cons x xs ih => simp only [List.cons_append, parts, ih, List.append_assoc, List.foldl_cons]

end Reader

/-! ## Trees -/

/-- The attribute exists. -/
def Leaf.existence (attr : String) : Leaf := ⟨⟨attr, some "$exists", .bool true⟩, .plain⟩

theorem Leaf.fragment_existence (style : LikeStyle) (attr : String) :
    (existence attr).fragment style = .ok (.single "$exists" (.bool true)) :=
  Query.Edit.fragment_existence style attr

/-- The attributes that a node of a counting clause names. -/
def Node.counted : Node → List String
  | .token ⟨.value, value⟩ => value.countedNames
  | _ => []

namespace Segment

def parts (count : CountStyle) (s : Segment) : List Part :=
  match s.identifier, count with
  | .where_, _ => Reader.parts {} s.nodes
  | .count, .existence => (s.nodes.flatMap Node.counted).map fun attr => .leaf (.existence attr)
  | _, _ => []

end Segment

/-- The parts of all clauses, in the order of the document. -/
def Tree.parts (count : CountStyle) (tree : Tree) : List Part := tree.segments.flatMap (Segment.parts count)

/-! ## Parts make the filter -/

/-- What a part makes of a filter. -/
inductive Filter.Takes (style : LikeStyle) : Filter → Part → Filter → Prop
  | leaf {f : Filter} {l : Leaf} {fragment : Json} (h : l.fragment style = .ok fragment) :
      Takes style f (.leaf l) (f.conjoin l.condition.key fragment)
  | array {f f' : Filter} {join : Combinator} {markers : List Marker} {nodes : List Node} {e : Expr}
      (hr : Grouping.reduce markers nodes = .ok (some e)) (ha : f.addExpr style join e = .ok f') :
      Takes style f (.array join markers nodes) f'
  | nothing {f : Filter} {join : Combinator} {markers : List Marker} {nodes : List Node}
      (hr : Grouping.reduce markers nodes = .ok none) : Takes style f (.array join markers nodes) f

/-- What parts make of a filter, one after the other. -/
inductive Filter.TakesAll (style : LikeStyle) : Filter → List Part → Filter → Prop
  | nil (f : Filter) : TakesAll style f [] f
  | cons {f f₁ f₂ : Filter} {p : Part} {ps : List Part} (h : Filter.Takes style f p f₁)
      (hs : TakesAll style f₁ ps f₂) : TakesAll style f (p :: ps) f₂

namespace Filter

variable {style : LikeStyle} {f f₁ f₂ : Filter}

theorem Takes.one {p : Part} (h : Takes style f p f₁) : TakesAll style f [p] f₁ := .cons h (.nil _)

theorem Takes.reduce_eq_ok {join : Combinator} {markers : List Marker} {nodes : List Node}
    (h : Takes style f (.array join markers nodes) f₁) : ∃ member, Grouping.reduce markers nodes = .ok member := by
  cases h with
  | array hr _ => exact ⟨_, hr⟩
  | nothing hr => exact ⟨_, hr⟩

theorem TakesAll.append {ps qs : List Part} (h₁ : TakesAll style f ps f₁) (h₂ : TakesAll style f₁ qs f₂) :
    TakesAll style f (ps ++ qs) f₂ := by
  induction h₁ with
  | nil _ => exact h₂
  | cons h _ ih => exact .cons h (ih h₂)

theorem TakesAll.exists_of_append {ps qs : List Part} (h : TakesAll style f (ps ++ qs) f₂) :
    ∃ f₁, TakesAll style f ps f₁ ∧ TakesAll style f₁ qs f₂ := by
  induction ps generalizing f with
  | nil => exact ⟨f, .nil f, h⟩
  | cons p ps ih =>
    cases h with
    | cons hp hs =>
      obtain ⟨f₁, hps, hqs⟩ := ih hs
      exact ⟨f₁, .cons hp hps, hqs⟩

/-- A part makes one filter of another. -/
theorem Takes.unique {p : Part} (h₁ : Takes style f p f₁) (h₂ : Takes style f p f₂) : f₁ = f₂ := by
  cases h₁ with
  | leaf h =>
    cases h₂ with
    | leaf h' => rw [Except.ok.inj (h.symm.trans h')]
  | array hr ha =>
    cases h₂ with
    | array hr' ha' =>
      cases hr.symm.trans hr'
      exact Except.ok.inj (ha.symm.trans ha')
    | nothing hr' => cases hr.symm.trans hr'
  | nothing hr =>
    cases h₂ with
    | array hr' _ => cases hr.symm.trans hr'
    | nothing _ => rfl

theorem TakesAll.unique {ps : List Part} (h₁ : TakesAll style f ps f₁) (h₂ : TakesAll style f ps f₂) : f₁ = f₂ := by
  induction h₁ with
  | nil _ =>
    cases h₂
    rfl
  | cons hp _ ih =>
    cases h₂ with
    | cons hp' hs' =>
      cases hp.unique hp'
      exact ih hs'

end Filter

namespace Query

variable {q q' : Query}

theorem apply_eq_ok {family : Family} {modifier : Modifier} {c : Condition} (h : q.apply family modifier c = .ok q') :
    ∃ fragment, c.fragment q.dialect.like modifier = .ok fragment ∧
      q' = { q with filter := q.filter.add family c.key fragment } := by
  unfold Query.apply Filter.apply at h
  rw [bind_eq_ok] at h
  obtain ⟨f, hf, h⟩ := h
  obtain ⟨fragment, hfragment, rfl⟩ := map_eq_ok.mp hf
  cases h
  exact ⟨fragment, hfragment, rfl⟩

/-- A group among the conditions is a part of the filter, and touches nothing else. -/
theorem takes_of_applyGroup {markers : List Marker} {outer : Option Combinator} {nodes : List Node}
    (h : q.applyGroup markers outer nodes = .ok q') :
    q'.dialect = q.dialect ∧
      Filter.Takes q.dialect.like q.filter (.array (outer.getD .or) markers nodes) q'.filter := by
  unfold applyGroup at h
  rw [bind_eq_ok] at h
  obtain ⟨reduced, hr, h⟩ := h
  cases reduced with
  | none =>
    cases h
    exact ⟨rfl, .nothing hr⟩
  | some e =>
    simp only [applyExpr, bind_eq_ok] at h
    obtain ⟨f, hf, h⟩ := h
    cases h
    exact ⟨rfl, .array hr hf⟩

/-- Counting by an attribute asks for its existence, if that is what counting means. -/
theorem takes_countBy (q : Query) (attr : String) :
    (q.countBy attr).dialect = q.dialect ∧
      Filter.TakesAll q.dialect.like q.filter
        (match q.dialect.count with
          | .existence => [.leaf (.existence attr)]
          | .pipeline => []) (q.countBy attr).filter := by
  unfold countBy setKind
  cases hc : q.dialect.count with
  | pipeline => simp only [hc]; exact ⟨trivial, .nil _⟩
  | existence =>
    simp only [hc]
    exact ⟨trivial, Filter.Takes.one (.leaf (Leaf.fragment_existence _ attr))⟩

/-- The parts that counting by some attributes adds. -/
def countedParts (count : CountStyle) (attributes : List String) : List Part :=
  match count with
  | .existence => attributes.map fun attr => .leaf (.existence attr)
  | .pipeline => []

theorem takesAll_countBy (attributes : List String) (q : Query) :
    (attributes.foldl countBy q).dialect = q.dialect ∧
      Filter.TakesAll q.dialect.like q.filter (countedParts q.dialect.count attributes)
        (attributes.foldl countBy q).filter := by
  induction attributes generalizing q with
  | nil => exact ⟨rfl, by cases h : q.dialect.count <;> exact .nil _⟩
  | cons attr rest ih =>
    obtain ⟨hd, ht⟩ := takes_countBy q attr
    obtain ⟨hd', ht'⟩ := ih (q.countBy attr)
    refine ⟨hd'.trans hd, ?_⟩
    rw [hd] at ht'
    have h := ht.append ht'
    cases hc : q.dialect.count with
    | pipeline => simpa [countedParts, hc] using h
    | existence => simpa [countedParts, hc] using h

/-! ### Operations that leave the filter alone -/

theorem sort_frame {attr : String} {direction : Json} (h : q.sort attr direction = .ok q') :
    q'.dialect = q.dialect ∧ q'.filter = q.filter := by
  obtain ⟨d, _, h⟩ := bind_eq_ok.mp h
  cases h
  exact ⟨rfl, rfl⟩

theorem distinct_frame {attributes : List String} (h : q.distinct attributes = .ok q') :
    q'.dialect = q.dialect ∧ q'.filter = q.filter := by
  unfold distinct at h
  split at h
  · cases h
  · cases h
    exact ⟨rfl, rfl⟩
  · cases h
    exact ⟨rfl, rfl⟩

theorem groupBy_frame {attributes : List String} (h : q.groupBy attributes = .ok q') :
    q'.dialect = q.dialect ∧ q'.filter = q.filter := by
  unfold groupBy at h
  split at h
  · cases h
  · cases h
    exact ⟨rfl, rfl⟩

/-- A value of a clause leaves the filter alone, unless it counts by the existence of attributes. -/
theorem takesAll_assign {i : Identifier} {value : Json} (h : q.assign i value = .ok q') :
    q'.dialect = q.dialect ∧
      Filter.TakesAll q.dialect.like q.filter
        (if i = .count then countedParts q.dialect.count value.countedNames else [])
        q'.filter := by
  cases i <;> simp only [assign] at h
  case count =>
    rw [bind_eq_ok] at h
    obtain ⟨attributes, ha, h⟩ := h
    cases h
    rw [Payload.counted_eq ha]
    exact takesAll_countBy attributes q.countRows
  case distinct =>
    rw [bind_eq_ok] at h
    obtain ⟨names, _, h⟩ := h
    obtain ⟨hd, hf⟩ := distinct_frame h
    rw [hf]
    exact ⟨hd, .nil _⟩
  case groupBy =>
    rw [bind_eq_ok] at h
    obtain ⟨names, _, h⟩ := h
    obtain ⟨hd, hf⟩ := groupBy_frame h
    rw [hf]
    exact ⟨hd, .nil _⟩
  case delete => cases h; exact ⟨rfl, .nil _⟩
  all_goals first
    | (rw [bind_eq_ok] at h; obtain ⟨_, _, h⟩ := h; cases h; exact ⟨rfl, .nil _⟩)
    | cases h

theorem flush_frame (q : Query) (i : Identifier) (pairs : List (String × Json)) :
    (q.flush i pairs).state.dialect = q.dialect ∧ (q.flush i pairs).state.filter = q.filter := by
  have sorted : ∀ (pairs : List (String × Json)) (q : Query),
      (q.sortAll pairs).state.dialect = q.dialect ∧ (q.sortAll pairs).state.filter = q.filter := by
    intro pairs
    induction pairs with
    | nil => exact fun q => ⟨rfl, rfl⟩
    | cons p rest ih =>
      intro q
      obtain ⟨attr, direction⟩ := p
      rw [sortAll]
      cases hs : q.sort attr direction with
      | error e => exact ⟨rfl, rfl⟩
      | ok q₁ =>
        obtain ⟨hd, hf⟩ := sort_frame hs
        rw [← hd, ← hf]
        exact ih q₁
  cases i
  case orderBy => exact sorted pairs q
  all_goals exact ⟨rfl, rfl⟩

end Query

namespace Cursor

variable {c c' : Cursor}

/-- What waits in the cursor of a filter clause. -/
def reader (c : Cursor) : Reader := ⟨c.modifiers, c.combinator, c.draft⟩

theorem takesAll_conditionStep {node : Node} (h : ConditionStep c node c') :
    c'.reader = c.reader.after node ∧ c'.query.dialect = c.query.dialect ∧
      Filter.TakesAll c.query.dialect.like c.query.filter (c.reader.part? node).toList c'.query.filter := by
  cases h with
  | array h =>
    obtain ⟨hd, ht⟩ := Query.takes_of_applyGroup h
    exact ⟨rfl, hd, ht.one⟩
  | key key => exact ⟨rfl, rfl, .nil _⟩
  | operator h =>
    obtain ⟨_, rfl⟩ := Draft.setOperator_eq_ok.mp h
    exact ⟨rfl, rfl, .nil _⟩
  | @value value clause draft q hd hq =>
    obtain ⟨key, hkey, _, rfl, rfl⟩ := Draft.complete_eq_ok.mp hd
    obtain ⟨fragment, hf, rfl⟩ := Query.apply_eq_ok hq
    refine ⟨rfl, rfl, ?_⟩
    have hpart : (c.reader.part? (.token ⟨.value, value⟩)).toList =
        [.leaf ⟨⟨key, c.draft.operator, value⟩, c.modifiers.resolved⟩] := by
      simp [Reader.part?, reader, Draft.leaf?, hkey]
    rw [hpart]
    exact Filter.Takes.one (.leaf hf)
  | word word =>
    refine ⟨?_, ?_, ?_⟩
    · cases hm : Marker.ofCondition? word with
      | none => simp [reader, Reader.after, Reader.word, conditionWord, hm]
      | some m => cases m <;> simp [reader, Reader.after, Reader.word, conditionWord, hm]
    · rw [query_conditionWord]
    · rw [query_conditionWord]
      exact .nil _

theorem takesAll_run (hs : c.scope = .conditions) {nodes : List Node} (hn : ∀ node ∈ nodes, node.identifier? = none)
    (h : c.run nodes = .ok c') :
    c'.scope = .conditions ∧ c'.query.dialect = c.query.dialect ∧
      Filter.TakesAll c.query.dialect.like c.query.filter (c.reader.parts nodes) c'.query.filter := by
  induction nodes generalizing c with
  | nil =>
    cases h
    exact ⟨hs, rfl, .nil _⟩
  | cons node rest ih =>
    rw [run_cons, bind_eq_ok] at h
    obtain ⟨c₁, hstep, hrest⟩ := h
    have hnode := hn node List.mem_cons_self
    have hs₁ : c₁.scope = .conditions := by rw [(step_frame hnode hstep).1, hs]
    obtain ⟨hr, hd, ht⟩ := takesAll_conditionStep (step_conditions hs hnode hstep)
    obtain ⟨hs', hd', ht'⟩ := ih hs₁ (fun n h => hn n (List.mem_cons_of_mem _ h)) hrest
    rw [hd, hr] at ht'
    exact ⟨hs', hd'.trans hd, ht.append ht'⟩

theorem takesAll_run_values {i : Identifier} (hs : c.scope = .values i) {nodes : List Node}
    (hn : ∀ node ∈ nodes, node.identifier? = none) (h : c.run nodes = .ok c') :
    c'.scope = .values i ∧ c'.query.dialect = c.query.dialect ∧
      Filter.TakesAll c.query.dialect.like c.query.filter
        (if i = .count then Query.countedParts c.query.dialect.count (nodes.flatMap Node.counted) else [])
        c'.query.filter := by
  induction nodes generalizing c with
  | nil =>
    cases h
    refine ⟨hs, rfl, ?_⟩
    split
    · cases c'.query.dialect.count <;> exact .nil _
    · exact .nil _
  | cons node rest ih =>
    rw [run_cons, bind_eq_ok] at h
    obtain ⟨c₁, hstep, hrest⟩ := h
    obtain ⟨value, q, rfl, hq, rfl⟩ := step_values hs (hn node List.mem_cons_self) hstep
    obtain ⟨hd, ht⟩ := Query.takesAll_assign hq
    obtain ⟨hs', hd', ht'⟩ := ih (c := { c with query := q }) hs (fun n h => hn n (List.mem_cons_of_mem _ h)) hrest
    simp only [hd] at ht' hd'
    refine ⟨hs', hd', ?_⟩
    have hall := ht.append ht'
    by_cases hi : i = .count
    · cases hcount : c.query.dialect.count <;>
        simpa [hi, hcount, Query.countedParts, Node.counted] using hall
    · simpa [hi] using hall

theorem run_pairs_frame {i : Identifier} (hs : c.scope.pairClause? = some i) {nodes : List Node}
    (hn : ∀ node ∈ nodes, node.identifier? = none) (h : c.run nodes = .ok c') :
    c'.scope = c.scope ∧ c'.query = c.query := by
  induction nodes generalizing c with
  | nil => cases h; exact ⟨rfl, rfl⟩
  | cons node rest ih =>
    rw [run_cons, bind_eq_ok] at h
    obtain ⟨c₁, hstep, hrest⟩ := h
    have hn' : ∀ n ∈ rest, n.identifier? = none := fun n h => hn n (List.mem_cons_of_mem _ h)
    rcases step_pairs hs (hn node List.mem_cons_self) hstep with ⟨key, _, rfl⟩ | ⟨_, pairs, _, _, rfl⟩
    · exact ih (c := { c with pairs := c.pairs.setKey key }) hs hn' hrest
    · exact ih (c := { c with pairs }) hs hn' hrest

theorem run_ignored {i : Identifier} (hs : c.scope = .ignored i) {nodes : List Node}
    (hn : ∀ node ∈ nodes, node.identifier? = none) (h : c.run nodes = .ok c') : c' = c := by
  induction nodes generalizing c with
  | nil => cases h; rfl
  | cons node rest ih =>
    rw [run_cons, bind_eq_ok] at h
    obtain ⟨c₁, hstep, hrest⟩ := h
    cases step_ignored hs (hn node List.mem_cons_self) hstep
    exact ih hs (fun n h => hn n (List.mem_cons_of_mem _ h)) hrest

theorem endClause_frame (h : c.endClause.result = .ok c') :
    c'.query.dialect = c.query.dialect ∧ c'.query.filter = c.query.filter := by
  unfold endClause at h
  split at h
  · simp only [Attempt.result, Except.ok.injEq] at h
    rw [← h]
    exact ⟨rfl, rfl⟩
  · rename_i clause _
    split at h
    · simp [Attempt.result] at h
    · rename_i pairs _
      simp only [Attempt.result] at h
      split at h
      · simp only [Except.ok.injEq] at h
        rw [← h]
        exact Query.flush_frame c.query clause pairs
      · cases h

end Cursor

namespace Segment

variable {count : CountStyle} {s : Segment}

theorem parts_where (h : s.identifier = .where_) : s.parts count = Reader.parts {} s.nodes := by
  simp [parts, h]

theorem parts_of_ne_where (h : s.identifier ≠ .where_) :
    s.parts count =
      if s.identifier = .count then Query.countedParts count (s.nodes.flatMap Node.counted) else [] := by
  cases hi : s.identifier <;> cases count <;> simp_all [parts, Query.countedParts]

end Segment

/-- What one clause makes of the filter. -/
theorem takesAll_of_readClause {q q' : Query} {s : Segment} (hn : ∀ node ∈ s.nodes, node.identifier? = none)
    (h : q.readClause s = .ok q') :
    q'.dialect = q.dialect ∧ Filter.TakesAll q.dialect.like q.filter (s.parts q.dialect.count) q'.filter := by
  unfold Query.readClause Cursor.finish at h
  rw [bind_eq_ok] at h
  obtain ⟨c, hrun, h⟩ := h
  rw [bind_eq_ok] at h
  obtain ⟨c', hend, h⟩ := h
  cases h
  obtain ⟨hd, hf⟩ := Cursor.endClause_frame hend
  obtain ⟨identifier, nodes⟩ := s
  rw [hd, hf]
  have hopen : (q.openClause identifier).query.dialect = q.dialect ∧
      (q.openClause identifier).query.filter = q.filter := by
    unfold Query.openClause Cursor.openClause
    split <;> exact ⟨rfl, rfl⟩
  rw [← hopen.1, ← hopen.2]
  -- The scope that the identifier opens decides what the run does to the filter.
  by_cases hw : identifier = .where_
  · subst hw
    rw [Segment.parts_where rfl]
    obtain ⟨_, hrun⟩ := Cursor.takesAll_run rfl hn hrun
    exact hrun
  · rw [Segment.parts_of_ne_where hw]
    have hscope : (q.openClause identifier).scope = .ofIdentifier identifier := rfl
    cases identifier
    case where_ => exact absurd rfl hw
    case insert | update | orderBy =>
      rw [(Cursor.run_pairs_frame rfl hn hrun).2]
      exact ⟨rfl, .nil _⟩
    case join | other =>
      rw [Cursor.run_ignored rfl hn hrun]
      exact ⟨rfl, .nil _⟩
    all_goals exact (Cursor.takesAll_run_values rfl hn hrun).2

/-- No clause has an identifier among its nodes. -/
theorem Group.identifier?_of_mem_cut (nodes : List Node) :
    (∀ node ∈ (Group.cut nodes).1, node.identifier? = none) ∧
      ∀ s ∈ (Group.cut nodes).2, ∀ node ∈ s.nodes, node.identifier? = none := by
  induction nodes with
  | nil => simp [Group.cut]
  | cons node rest ih =>
    obtain ⟨hhead, htail⟩ := ih
    cases hn : node.identifier? with
    | none =>
      simp only [Group.cut, hn, List.forall_mem_cons]
      exact ⟨⟨trivial, hhead⟩, htail⟩
    | some i =>
      simp only [Group.cut, hn, List.forall_mem_cons]
      exact ⟨by simp, hhead, htail⟩

theorem Tree.identifier?_of_mem_segments {tree : Tree} {s : Segment} (h : s ∈ tree.segments) :
    ∀ node ∈ s.nodes, node.identifier? = none := by
  obtain ⟨g, _, hs⟩ := List.mem_flatMap.mp h
  exact (Group.identifier?_of_mem_cut g).2 s hs

/-- Induction on the clauses that are still to be read, for a tree that compiles. -/
theorem compile_induction {dialect : Dialect} {tree : Tree} {q : Query} {motive : Query → List Segment → Prop}
    (h : compile dialect tree = .ok q) (nil : motive q [])
    (cons : ∀ (q₀ q₁ : Query) (s : Segment) (segments : List Segment), (∀ node ∈ s.nodes, node.identifier? = none) →
      q₀.readClause s = .ok q₁ → motive q₁ segments → motive q₀ (s :: segments)) :
    motive (.empty dialect) tree.segments := by
  have run : ∀ (segments : List Segment) (q₀ : Query),
      (∀ s ∈ segments, ∀ node ∈ s.nodes, node.identifier? = none) →
      segments.foldlM Query.readClause q₀ = .ok q → motive q₀ segments := by
    intro segments
    induction segments with
    | nil =>
      intro q₀ _ h
      cases h
      exact nil
    | cons s segments ih =>
      intro q₀ hn h
      rw [List.forall_mem_cons] at hn
      rw [List.foldlM_cons, bind_eq_ok] at h
      obtain ⟨q₁, hs, hrest⟩ := h
      exact cons q₀ q₁ s segments hn.1 hs (ih q₁ hn.2 hrest)
  exact run tree.segments _ (fun s hs => Tree.identifier?_of_mem_segments hs) (readClauses_of_compile h)

/-- **The filter of a compiled tree** is what its parts make of the empty filter. -/
theorem takesAll_of_compile {dialect : Dialect} {tree : Tree} {q : Query} (h : compile dialect tree = .ok q) :
    Filter.TakesAll dialect.like [] (tree.parts dialect.count) q.filter := by
  refine compile_induction (motive := fun q₀ segments =>
    Filter.TakesAll q₀.dialect.like q₀.filter (segments.flatMap (Segment.parts q₀.dialect.count)) q.filter) h (.nil _) ?_
  intro q₀ q₁ s segments hn hs ht
  obtain ⟨hd, ht₀⟩ := takesAll_of_readClause hn hs
  rw [hd] at ht
  exact ht₀.append ht

theorem dialect_of_compile {dialect : Dialect} {tree : Tree} {q : Query} (h : compile dialect tree = .ok q) :
    q.dialect = dialect := by
  refine compile_induction (motive := fun q₀ _ => q.dialect = q₀.dialect) h rfl ?_
  intro q₀ q₁ s segments hn hs hd
  rw [hd, (takesAll_of_readClause hn hs).1]

end DocQuery
