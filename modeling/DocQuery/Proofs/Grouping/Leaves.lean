import DocQuery.Proofs.Reading

/-!
# Reduced groups keep their leaves

`Grouping.reduce` turns a group into an expression: it flattens groups of one member, drops empty ones, and passes
the markers in front of a group on to the clause it reduces to. None of that adds, drops or reorders a leaf: the
leaves of the expression are those of the demand of the array, and their values are the values of the array in the
order of the document (`keeps_of_reduce`).
-/

namespace DocQuery

/-! ## Leaves of expressions -/

/-- The leaf that a clause stands for. A mark with `AND` does not show in it. -/
def Clause.leaf (c : Clause) : Leaf := ⟨c.condition, Modifiers.resolved ⟨c.markers⟩⟩

@[simp] theorem Clause.leaf_mark_and (c : Clause) : (c.mark .and).leaf = c.leaf := by
  simp [leaf, mark, Modifiers.resolved_eq]

namespace Expr

mutual

/-- The clauses from left to right. -/
def clauses : Expr → List Clause
  | .clause c => [c]
  | .group _ members => clausesAll members

def clausesAll : List Expr → List Clause
  | [] => []
  | e :: rest => e.clauses ++ clausesAll rest

end

def leaves (e : Expr) : List Leaf := e.clauses.map Clause.leaf

def leavesAll (members : List Expr) : List Leaf := (clausesAll members).map Clause.leaf

theorem clausesAll_append : ∀ xs ys : List Expr, clausesAll (xs ++ ys) = clausesAll xs ++ clausesAll ys
  | [], _ => rfl
  | x :: xs, ys => by
    rw [List.cons_append, clausesAll, clausesAll, clausesAll_append xs ys, List.append_assoc]

theorem leavesAll_cons (e : Expr) (rest : List Expr) : leavesAll (e :: rest) = e.leaves ++ leavesAll rest := by
  rw [leavesAll, clausesAll, List.map_append]
  rfl

theorem leavesAll_singleton (e : Expr) : leavesAll [e] = e.leaves := by
  rw [leavesAll_cons]
  exact List.append_nil _

theorem leavesAll_append (xs ys : List Expr) : leavesAll (xs ++ ys) = leavesAll xs ++ leavesAll ys := by
  rw [leavesAll, clausesAll_append, List.map_append]
  rfl

mutual

/-- No group in it is empty. -/
def Populated : Expr → Prop
  | .clause _ => True
  | .group _ members => members ≠ [] ∧ AllPopulated members

def AllPopulated : List Expr → Prop
  | [] => True
  | e :: rest => e.Populated ∧ AllPopulated rest

end

theorem allPopulated_append : ∀ xs ys : List Expr, AllPopulated (xs ++ ys) ↔ AllPopulated xs ∧ AllPopulated ys
  | [], ys => by simp [AllPopulated]
  | x :: xs, ys => by
    rw [List.cons_append, AllPopulated, AllPopulated, allPopulated_append xs ys, and_assoc]

/-- A clause that its group has marked with `AND`. -/
def isTagged : Expr → Bool
  | .clause c => c.markers.contains .and
  | .group _ _ => false

end Expr

/-! ## Markers in front of a group -/

/-- A clause has at most one `NOT`. -/
def Clause.Simple (c : Clause) : Prop := c.markers.count .not ≤ 1

theorem Modifiers.contains_resolve (markers : List Marker) :
    (Marker.resolve markers).modifiers.markers.contains .not = markers.contains .not ∧
      (Marker.resolve markers).modifiers.markers.contains .inList = markers.contains .inList := by
  unfold Marker.resolve
  cases hn : markers.contains .not <;> cases hi : markers.contains .inList <;> simp_all

/-- Resolved markers are those of the list, `AND` apart. -/
theorem Modifiers.resolved_resolve (markers : List Marker) :
    (Marker.resolve markers).modifiers.resolved = Modifiers.resolved ⟨markers⟩ := by
  obtain ⟨hn, hi⟩ := contains_resolve markers
  rw [resolved_eq, resolved_eq, hn, hi]

namespace Clause

variable {c : Clause}

/-- The clause with its negation toggled. -/
def toggled (c : Clause) : Clause :=
  if c.markers.contains .not then { c with markers := c.markers.erase .not } else c.mark .not

/-- The clause as a list test. -/
def listed (c : Clause) : Clause := if c.markers.contains .inList then c else c.mark .inList

theorem simple_toggled (h : c.Simple) : c.toggled.Simple := by
  unfold toggled Simple
  split
  · rw [List.count_erase_self]
    exact Nat.le_trans (Nat.sub_le _ _) h
  · rename_i hn
    have hzero : c.markers.count .not = 0 := List.count_eq_zero.mpr (by simpa using hn)
    simp [mark, hzero]

theorem simple_listed (h : c.Simple) : c.listed.Simple := by
  unfold listed
  split
  · exact h
  · simpa [Simple, mark] using h

/-- A clause with at most one `NOT` has none after it is taken off. -/
theorem contains_toggled (h : c.Simple) : c.toggled.markers.contains .not = !c.markers.contains .not := by
  unfold toggled
  split
  · rename_i hn
    have hzero : (c.markers.erase .not).count .not = 0 := by
      rw [List.count_erase_self]
      exact Nat.sub_eq_zero_of_le h
    rw [hn]
    simpa using List.count_eq_zero.mp hzero
  · rename_i hn
    simp_all [mark]

/-- The other markers stay as they are. -/
theorem contains_toggled_of_ne {m : Marker} (hm : m ≠ .not) : c.toggled.markers.contains m = c.markers.contains m := by
  unfold toggled
  split
  · simp [List.mem_erase_of_ne hm]
  · simp [mark, hm]

theorem contains_listed : c.listed.markers.contains .inList = true := by
  unfold listed
  split
  · assumption
  · simp [mark]

theorem contains_listed_of_ne {m : Marker} (hm : m ≠ .inList) : c.listed.markers.contains m = c.markers.contains m := by
  unfold listed
  split
  · rfl
  · simp [mark, hm]

/-- The clause that markers in front of its group make of it. -/
def turned (markers : List Marker) (c : Clause) : Clause :=
  let c := if markers.contains .not then c.toggled else c
  if markers.contains .inList then c.listed else c

theorem simple_turned (markers : List Marker) (h : c.Simple) : (c.turned markers).Simple := by
  unfold turned
  cases markers.contains .not <;> cases markers.contains .inList
  · exact h
  · exact simple_listed h
  · exact simple_toggled h
  · exact simple_listed (simple_toggled h)

/-- A clause is turned as its leaf is. -/
theorem leaf_turned (markers : List Marker) (h : c.Simple) : (c.turned markers).leaf = c.leaf.turn markers := by
  have hcond : c.toggled.condition = c.condition := by unfold toggled; split <;> rfl
  have hcond' : ∀ d : Clause, d.listed.condition = d.condition := fun d => by unfold listed; split <;> rfl
  have hin := contains_toggled_of_ne (c := c) (m := .inList) (by decide)
  have hnot := fun d : Clause => contains_listed_of_ne (c := d) (m := .not) (by decide)
  simp only [leaf, Leaf.turn, Modifier.turn, Modifiers.resolved_eq, Modifier.isNegated_of, Modifier.isListed_of, turned]
  cases markers.contains .not <;> cases markers.contains .inList <;>
    simp only [↓reduceIte, Bool.false_eq_true, hcond, hcond', hin, hnot, contains_listed, contains_toggled h,
      Bool.xor_false, Bool.xor_true, Bool.or_false, Bool.or_true]

theorem contains_and_turned (markers : List Marker) :
    (c.turned markers).markers.contains .and = c.markers.contains .and := by
  have hlist := fun d : Clause => contains_listed_of_ne (c := d) (m := .and) (by decide)
  have htoggle := contains_toggled_of_ne (c := c) (m := .and) (by decide)
  unfold turned
  cases markers.contains .not <;> cases markers.contains .inList <;>
    simp only [↓reduceIte, Bool.false_eq_true, hlist, htoggle]

end Clause

namespace Expr

variable {markers : List Marker} {e e' : Expr}

/-- Markers turn a single clause, and are refused by a group of several members. -/
theorem inherit_eq_ok (h : e.inherit markers = .ok e') :
    (markers = [] ∧ e' = e) ∨ (∃ c, e = .clause c ∧ e' = .clause (c.turned markers)) := by
  unfold inherit at h
  split at h
  · rename_i hnil
    cases h
    exact .inl ⟨by simpa using hnil, rfl⟩
  · obtain ⟨hn, hi⟩ := Modifiers.contains_resolve markers
    cases e with
    | group combinator members => simp at h
    | clause c =>
      refine .inr ⟨c, rfl, ?_⟩
      simp only [hn, hi, Except.ok.injEq] at h
      rw [← h]
      have hlisted : ∀ d : Clause, (if !d.markers.contains .inList then d.mark .inList else d) = d.listed := fun d => by
        unfold Clause.listed
        cases d.markers.contains .inList <;> rfl
      unfold Clause.turned
      cases markers.contains .inList with
      | false => rfl
      | true => exact congrArg Expr.clause (hlisted _)

end Expr

/-! ## What the nodes of a group give -/

/-- A word that marks a condition does not combine, `AND` apart. -/
theorem Combinator.ofCondition?_of_marker {word : String} {m : Marker} (hm : m ≠ .and)
    (h : Marker.ofCondition? word = some m) : Combinator.ofCondition? word = none := by
  unfold Marker.ofCondition? at h
  unfold Combinator.ofCondition?
  split at h <;> simp_all

/-- The clause as its group keeps it. -/
def Clause.tag (conjoined : Bool) (c : Clause) : Clause := if conjoined then c.mark .and else c

@[simp] theorem Clause.leaf_tag (conjoined : Bool) (c : Clause) : (c.tag conjoined).leaf = c.leaf := by
  cases conjoined <;> simp [tag]

theorem Clause.simple_tag {c : Clause} (conjoined : Bool) (h : c.Simple) : (c.tag conjoined).Simple := by
  cases conjoined
  · exact h
  · simpa [tag, mark, Simple] using h

namespace Grouping

/-- The members that a node adds to a group, if it comes after the draft `d`. -/
inductive Gives (conjoined : Bool) (d : Draft) : Node → List Expr → Prop
  | clause {key : String} (value : Json) (h : d.key = some key) (hdone : d.done = false) :
      Gives conjoined d (.token ⟨.value, value⟩) [.clause (Clause.tag conjoined ⟨d.markers, ⟨key, d.operator, value⟩⟩)]
  | token {kind : TokenKind} (payload : String) (h : kind = .key ∨ kind = .operator ∨ kind = .condition)
      (hoperator : kind = .operator → d.key.isSome = true) : Gives conjoined d (.token ⟨kind, .str payload⟩) []
  | array {nodes : List Node} {member : Option Expr} (h : reduce d.pendingMarkers nodes = .ok member) :
      Gives conjoined d (.group nodes) member.toList

/-- The members that nodes add to a group, one after the other. -/
inductive GivesAll (conjoined : Bool) : Draft → List Node → List Expr → Prop
  | nil (d : Draft) : GivesAll conjoined d [] []
  | cons {d : Draft} {node : Node} {rest : List Node} {new news : List Expr} (h : Gives conjoined d node new)
      (hs : GivesAll conjoined (d.after node) rest news) : GivesAll conjoined d (node :: rest) (new ++ news)

variable {conjoined : Bool} {g g' : Gathered} {node : Node} {nodes : List Node}

theorem condition_eq (g : Gathered) (word : String) :
    g.condition word =
      { g with
        draft := g.draft.after (.token ⟨.condition, .str word⟩)
        combinator := (Combinator.ofCondition? word).or g.combinator } := by
  cases hm : Marker.ofCondition? word with
  | none => simp [Gathered.condition, Draft.after, hm]
  | some m =>
    cases m with
    | and => simp [Gathered.condition, Draft.after, hm]
    | not => simp [Gathered.condition, Draft.after, hm, Combinator.ofCondition?_of_marker (by simp) hm]
    | inList => simp [Gathered.condition, Draft.after, hm, Combinator.ofCondition?_of_marker (by simp) hm]

/-- A nested group is reduced on its own. -/
theorem gatherNode_group (conjoined : Bool) (g : Gathered) (nodes : List Node) :
    gatherNode conjoined g (.group nodes) = reduce g.draft.pendingMarkers nodes >>= fun member =>
      .ok { g with draft := {}, members := g.members ++ member.toList } := by
  simp only [gatherNode, reduce, bind_assoc]
  rfl

theorem gather_append (conjoined : Bool) (g : Gathered) (xs ys : List Node) :
    gather conjoined g (xs ++ ys) = gather conjoined g xs >>= fun g => gather conjoined g ys := by
  induction xs generalizing g with
  | nil => rfl
  | cons x xs ih =>
    simp only [List.cons_append, gather, bind_assoc, ih]

/-- What the arrays of a group hold does not decide whether its clauses are marked. -/
theorem isConjoined_array (pre post a a' : List Node) :
    isConjoined (pre ++ .group a :: post) = isConjoined (pre ++ .group a' :: post) := by
  simp [isConjoined, isValue, isGroup]

/-- Arrays that reduce alike can be exchanged in the group around them. -/
theorem reduce_congr_array {a a' : List Node} (h : ∀ markers, reduce markers a = reduce markers a')
    (pre post : List Node) (markers : List Marker) :
    reduce markers (pre ++ .group a :: post) = reduce markers (pre ++ .group a' :: post) := by
  rw [reduce, reduce, isConjoined_array pre post a a', gather_append, gather_append]
  simp only [gather, gatherNode_group, h]

/-- What one node does to what has been gathered. -/
theorem gatherNode_eq_ok (h : gatherNode conjoined g node = .ok g') :
    ∃ new, Gives conjoined g.draft node new ∧
      g' = ⟨g.draft.after node, node.combinator?.or g.combinator, g.members ++ new⟩ := by
  cases node with
  | group inner =>
    rw [gatherNode_group, bind_eq_ok] at h
    obtain ⟨member, hreduce, h⟩ := h
    cases h
    exact ⟨member.toList, .array hreduce, rfl⟩
  | token t =>
    obtain ⟨kind, value⟩ := t
    rw [gatherNode] at h
    cases kind with
    | identifier =>
      simp only [Gathered.token, bind_eq_ok] at h
      obtain ⟨name, _, h⟩ := h
      split at h <;> cases h
    | key =>
      simp only [Gathered.token, bind_eq_ok, Cursor.string_eq_ok] at h
      obtain ⟨key, rfl, h⟩ := h
      cases h
      exact ⟨[], .token key (by simp) (by simp), by simp [Draft.after, Node.combinator?]⟩
    | operator =>
      simp only [Gathered.token, bind_eq_ok, Cursor.string_eq_ok] at h
      obtain ⟨operator, rfl, draft, hd, h⟩ := h
      cases h
      obtain ⟨hkey, rfl⟩ := Draft.setOperator_eq_ok.mp hd
      exact ⟨[], .token operator (by simp) fun _ => hkey, by simp [Draft.after, Node.combinator?]⟩
    | condition =>
      simp only [Gathered.token, bind_eq_ok, Cursor.string_eq_ok] at h
      obtain ⟨word, rfl, h⟩ := h
      cases h
      exact ⟨[], .token word (by simp) (by simp), by simp [condition_eq, Node.combinator?]⟩
    | value =>
      simp only [Gathered.token, bind_eq_ok] at h
      obtain ⟨⟨clause, draft⟩, hd, h⟩ := h
      cases h
      obtain ⟨key, hkey, hdone, rfl, rfl⟩ := Draft.complete_eq_ok.mp hd
      exact ⟨_, .clause value hkey hdone, rfl⟩

/-- The last combinator named so far. -/
def lastCombinator (start : Option Combinator) (nodes : List Node) : Option Combinator :=
  (nodes.filterMap Node.combinator?).getLast?.or start

theorem lastCombinator_cons (start : Option Combinator) (node : Node) (rest : List Node) :
    lastCombinator (node.combinator?.or start) rest = lastCombinator start (node :: rest) := by
  unfold lastCombinator
  cases hc : node.combinator? with
  | none => simp [hc]
  | some c => cases hl : (rest.filterMap Node.combinator?).getLast? <;> simp [hc, hl, List.getLast?_cons]

theorem gather_eq_ok (h : gather conjoined g nodes = .ok g') :
    ∃ news, GivesAll conjoined g.draft nodes news ∧ g'.members = g.members ++ news ∧
      g'.combinator = lastCombinator g.combinator nodes := by
  induction nodes generalizing g with
  | nil =>
    cases h
    exact ⟨[], .nil _, by simp, by simp [lastCombinator]⟩
  | cons node rest ih =>
    rw [gather, bind_eq_ok] at h
    obtain ⟨g₁, hnode, hrest⟩ := h
    obtain ⟨new, hgives, rfl⟩ := gatherNode_eq_ok hnode
    obtain ⟨news, hall, hmembers, hcombinator⟩ := ih hrest
    exact ⟨new ++ news, .cons hgives hall, by simp [hmembers], by rw [hcombinator, lastCombinator_cons]⟩

/-- **How a group reduces**: to nothing without members, to its only member turned by the markers in front, or to the
group of its members, which takes no markers. -/
theorem reduce_eq_ok {markers : List Marker} {member : Option Expr} (h : reduce markers nodes = .ok member) :
    ∃ news, GivesAll (isConjoined nodes) {} nodes news ∧
      ((news = [] ∧ member = none) ∨
        (∃ e e', news = [e] ∧ e.inherit markers = .ok e' ∧ member = some e') ∨
        (2 ≤ news.length ∧ markers = [] ∧ member = some (.group (Group.join nodes) news))) := by
  rw [reduce, bind_eq_ok] at h
  obtain ⟨g, hgather, hclose⟩ := h
  obtain ⟨news, hall, hmembers, hcombinator⟩ := gather_eq_ok hgather
  refine ⟨news, hall, ?_⟩
  have hjoin : g.combinator.getD .or = Group.join nodes := by simp [hcombinator, lastCombinator, Group.join]
  simp only [List.nil_append] at hmembers
  simp only [Gathered.close, hmembers, hjoin] at hclose
  rcases news with _ | ⟨e, _ | ⟨_, _⟩⟩
  · cases hclose
    exact .inl ⟨rfl, rfl⟩
  · obtain ⟨e', he, hclose⟩ := bind_eq_ok.mp hclose
    cases hclose
    exact .inr (.inl ⟨e, e', rfl, he, rfl⟩)
  · obtain ⟨e', he, hclose⟩ := bind_eq_ok.mp hclose
    cases hclose
    rcases Expr.inherit_eq_ok he with ⟨hm, rfl⟩ | ⟨c, hc, _⟩
    · exact .inr (.inr ⟨by simp, hm, rfl⟩)
    · cases hc

end Grouping

/-! ## Leaves and values -/

mutual

/-- The arrays of a node, at any depth. -/
def Node.arrays : Node → List (List Node)
  | .token _ => []
  | .group nodes => nodes :: Group.arrays nodes

def Group.arrays : List Node → List (List Node)
  | [] => []
  | node :: rest => node.arrays ++ Group.arrays rest

end

def Node.values (node : Node) : List Json := (node.tokens.filter (·.kind == .value)).map Token.value

/-- The payloads of the values among some nodes, at any depth, in the order of the document. -/
def Group.values (nodes : List Node) : List Json := ((Group.tokens nodes).filter (·.kind == .value)).map Token.value

theorem Group.values_cons (node : Node) (rest : List Node) :
    Group.values (node :: rest) = node.values ++ Group.values rest := by
  simp [Group.values, Node.values, Group.tokens]

/-- The clause in the making has at most one `NOT`, and no mark of its group yet. -/
structure Draft.Simple (d : Draft) : Prop where
  negation : d.markers.count .not ≤ 1
  untagged : d.markers.contains .and = false

theorem Draft.Simple.empty : Draft.Simple {} := ⟨by decide, by decide⟩

theorem Draft.Simple.after {d : Draft} (h : d.Simple) (node : Node) : (d.after node).Simple := by
  unfold Draft.after
  split
  · exact .empty
  · unfold Draft.setKey
    split
    · exact ⟨h.negation, h.untagged⟩
    · exact ⟨Nat.zero_le _, rfl⟩
  · exact ⟨h.negation, h.untagged⟩
  · exact ⟨h.negation, h.untagged⟩
  · split
    · exact ⟨by decide, by decide⟩
    · exact ⟨by simpa [Draft.mark] using h.negation, by simpa [Draft.mark] using h.untagged⟩
    · exact h
  · exact h

/-- Members that stand for some demands: leaf by leaf, and with the values of the document. -/
structure Keeps (members : List Expr) (demands : List Demand) (values : List Json) : Prop where
  simple : ∀ c ∈ Expr.clausesAll members, c.Simple
  populated : Expr.AllPopulated members
  leaves : Expr.leavesAll members = Demand.leavesAll demands
  values : (Expr.leavesAll members).map (·.condition.value) = values

namespace Keeps

theorem nil : Keeps [] [] [] := ⟨by simp [Expr.clausesAll], trivial, rfl, rfl⟩

theorem append {m₁ m₂ : List Expr} {ds₁ ds₂ : List Demand} {vs₁ vs₂ : List Json} (h₁ : Keeps m₁ ds₁ vs₁)
    (h₂ : Keeps m₂ ds₂ vs₂) : Keeps (m₁ ++ m₂) (ds₁ ++ ds₂) (vs₁ ++ vs₂) where
  simple := by
    rw [Expr.clausesAll_append, List.forall_mem_append]
    exact ⟨h₁.simple, h₂.simple⟩
  populated := (Expr.allPopulated_append m₁ m₂).mpr ⟨h₁.populated, h₂.populated⟩
  leaves := by
    rw [Expr.leavesAll_append, Demand.leavesAll_append, h₁.leaves, h₂.leaves]
  values := by rw [Expr.leavesAll_append, List.map_append, h₁.values, h₂.values]

/-- The members of an array stand for its demand once they are reduced. -/
theorem reduce {nodes : List Node} {markers : List Marker} {member : Option Expr} {join : Combinator}
    (hkeeps : ∀ news, Grouping.GivesAll (Grouping.isConjoined nodes) {} nodes news →
      Keeps news (Group.demands (Group.join nodes) {} nodes) (Group.values nodes))
    (h : Grouping.reduce markers nodes = .ok member) :
    Keeps member.toList [Group.demand join markers nodes] (Group.values nodes) := by
  obtain ⟨news, hall, hclose⟩ := Grouping.reduce_eq_ok h
  have hnews := hkeeps news hall
  have hdemand : Demand.leavesAll [Group.demand join markers nodes] =
      (Demand.leavesAll (Group.demands (Group.join nodes) {} nodes)).map (Leaf.turn markers) := by
    simp [Demand.leavesAll, Group.demand, Demand.leaves_turn, Demand.leaves]
  rcases hclose with ⟨rfl, rfl⟩ | ⟨e, e', rfl, he, rfl⟩ | ⟨htwo, rfl, rfl⟩
  · exact ⟨by simp [Expr.clausesAll], trivial, by rw [hdemand, ← hnews.leaves]; rfl, hnews.values⟩
  · rcases Expr.inherit_eq_ok he with ⟨rfl, rfl⟩ | ⟨c, rfl, rfl⟩
    · refine ⟨hnews.simple, hnews.populated, ?_, hnews.values⟩
      rw [hdemand, ← hnews.leaves, Leaf.map_turn_nil]
      rfl
    · have hc : c.Simple := hnews.simple c (by simp [Expr.clausesAll, Expr.clauses])
      have hleaf : Expr.leavesAll [.clause (c.turned markers)] = [c.leaf.turn markers] := by
        simp [Expr.leavesAll, Expr.clausesAll, Expr.clauses, Clause.leaf_turned markers hc]
      refine ⟨?_, ⟨trivial, trivial⟩, ?_, ?_⟩
      · simpa [Expr.clausesAll, Expr.clauses] using Clause.simple_turned markers hc
      · rw [hdemand, ← hnews.leaves]
        exact hleaf
      · rw [← hnews.values]
        exact congrArg (List.map (·.condition.value)) hleaf
  · have hclauses : Expr.clausesAll [.group (Group.join nodes) news] = Expr.clausesAll news := by
      simp [Expr.clausesAll, Expr.clauses]
    have hleaves : Expr.leavesAll [.group (Group.join nodes) news] = Expr.leavesAll news := by
      rw [Expr.leavesAll, hclauses, Expr.leavesAll]
    refine ⟨by simpa only [Option.toList, hclauses] using hnews.simple, ?_, ?_, ?_⟩
    · exact ⟨⟨List.length_pos_iff.mp (by omega), hnews.populated⟩, trivial⟩
    · rw [hdemand, ← hnews.leaves, Leaf.map_turn_nil]
      exact hleaves
    · rw [← hnews.values]
      exact congrArg (List.map (·.condition.value)) hleaves

end Keeps

namespace Grouping

/-- A value completes the clause in the making. -/
theorem keeps_clause {d : Draft} {key : String} (join : Combinator) (conjoined : Bool) (hd : d.Simple)
    (h : d.key = some key) (value : Json) :
    Keeps [.clause (Clause.tag conjoined ⟨d.markers, ⟨key, d.operator, value⟩⟩)]
      ((Node.token ⟨.value, value⟩).demands join d) (Node.token ⟨.value, value⟩).values := by
  let c : Clause := ⟨d.markers, ⟨key, d.operator, value⟩⟩
  have hleaf : Expr.leavesAll [.clause (c.tag conjoined)] = [c.leaf] := by
    simp only [Expr.leavesAll, Expr.clausesAll, Expr.clauses, List.append_nil, List.map_cons, List.map_nil,
      Clause.leaf_tag]
  refine ⟨?_, ⟨trivial, trivial⟩, ?_, ?_⟩
  · simpa [Expr.clausesAll, Expr.clauses] using Clause.simple_tag (c := c) conjoined hd.negation
  · rw [hleaf]
    simp [Node.demands, Draft.leaf?, h, Demand.leavesAll, Demand.leaves, Clause.leaf, c]
  · rw [hleaf]
    simp [Node.values, Node.tokens, Clause.leaf, c]

mutual

theorem Gives.keeps : ∀ {node : Node} {conjoined : Bool} {join : Combinator} {d : Draft} {new : List Expr},
    d.Simple → Gives conjoined d node new → Keeps new (node.demands join d) node.values
  | .token _, conjoined, join, _, _, hd, .clause value h _ => keeps_clause join conjoined hd h value
  | .token _, _, _, _, _, _, .token _ h _ => by
    rcases h with rfl | rfl | rfl <;> exact Keeps.nil
  | .group _, _, _, _, _, _, .array h => Keeps.reduce (fun _ hnews => GivesAll.keeps .empty hnews) h

theorem GivesAll.keeps : ∀ {nodes : List Node} {conjoined : Bool} {join : Combinator} {d : Draft} {news : List Expr},
    d.Simple → GivesAll conjoined d nodes news → Keeps news (Group.demands join d nodes) (Group.values nodes)
  | [], _, _, _, _, _, .nil _ => Keeps.nil
  | node :: _, _, _, _, _, hd, .cons h hs => by
    rw [Group.demands, Group.values_cons]
    exact (Gives.keeps hd h).append (GivesAll.keeps (hd.after node) hs)

end

/-- **A reduced group keeps its leaves**: they are those of the array's demand, in the order of its values. -/
theorem keeps_of_reduce {nodes : List Node} {markers : List Marker} {member : Option Expr} (join : Combinator)
    (h : reduce markers nodes = .ok member) :
    Keeps member.toList [Group.demand join markers nodes] (Group.values nodes) :=
  Keeps.reduce (fun _ hnews => GivesAll.keeps .empty hnews) h

end Grouping

end DocQuery
