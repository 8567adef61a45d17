import DocQuery.Proofs.EmptyArrays.Reduction
import DocQuery.Proofs.Markers.Groups
import DocQuery.Proofs.Spellings.Clauses

/-!
# Markers in front of operands

An operand of an array is a clause, or an array that reduces to one (`Operand`). It becomes one leaf, turned by the
markers that wait in front of it (`Operand.leaves_nodes`). `NOT` always waits, since it gives up the clause before it.
But `IN` is put on the clause in the making, also if that has its key already, and then does not wait for anything. So
it reaches the operand after it if and only if no key of the array stands open (`Group.KeyStands`). Where one does, the
`IN` is lost: the array reduces as if it were not there (`Grouping.reduce_inList_of_keyStands`).
-/

namespace DocQuery

open Grouping

/-! ## Leaves at their places -/

namespace Leaf

/-- The leaf stands among some others, after those with the values `before`. -/
def StandsAt (l : Leaf) (before : List Json) (ls : List Leaf) : Prop :=
  ∃ xs ys, ls = xs ++ l :: ys ∧ xs.map (·.condition.value) = before

variable {l : Leaf} {before : List Json} {ls : List Leaf}

theorem StandsAt.append (h : l.StandsAt before ls) (front back : List Leaf) :
    l.StandsAt (front.map (·.condition.value) ++ before) (front ++ (ls ++ back)) := by
  obtain ⟨xs, ys, rfl, rfl⟩ := h
  exact ⟨front ++ xs, ys ++ back, by simp, by simp⟩

theorem StandsAt.turn (h : l.StandsAt before ls) (markers : List Marker) :
    (l.turn markers).StandsAt before (ls.map (Leaf.turn markers)) := by
  obtain ⟨xs, ys, rfl, rfl⟩ := h
  refine ⟨xs.map (Leaf.turn markers), ys.map (Leaf.turn markers), by simp, ?_⟩
  rw [List.map_map]
  rfl

/-- A leaf without markers of its own takes those in front as they are. -/
theorem turn_plain (markers : List Marker) (c : Condition) :
    turn markers ⟨c, .plain⟩ = ⟨c, Modifiers.resolved ⟨markers⟩⟩ := by
  simp [turn, Modifier.turn, Modifier.isNegated, Modifier.isListed, Modifiers.resolved_eq]

theorem turn_comm (l : Leaf) (ms ms' : List Marker) : (l.turn ms).turn ms' = (l.turn ms').turn ms := by
  simp only [turn, Modifier.turn, Modifier.isNegated_of, Modifier.isListed_of, Bool.xor_assoc, Bool.or_assoc]
  rw [Bool.xor_comm (ms.contains .not), Bool.or_comm (ms.contains .inList)]

/-- The marker is taken into account: `NOT` toggles the negation, and `IN` makes a list test. -/
structure Heeds (style : LikeStyle) (m : Marker) (l l' : Leaf) : Prop where
  condition : l'.condition = l.condition
  negation : m = .not → l'.modifier.isNegated = !l.modifier.isNegated
  listTest : m = .inList →
    l'.fragment style = .ok (.single (if l'.modifier.isNegated then "$nin" else "$in") l.condition.value.asArray)

theorem heeds_turn (style : LikeStyle) {m : Marker} {markers : List Marker} (hm : m ∈ markers) (l : Leaf) :
    l.Heeds style m (l.turn markers) where
  condition := rfl
  negation := by
    rintro rfl
    simp [turn, Modifier.turn, hm]
  listTest := by
    rintro rfl
    simp only [turn, Modifier.turn, Modifier.isNegated_of, fragment, List.contains_iff_mem.mpr hm, Bool.or_true]
    cases l.modifier.isNegated ^^ markers.contains .not <;> rfl

end Leaf

/-! ## Leaves of arrays -/

def Node.leaves (d : Draft) (node : Node) : List Leaf := Demand.leavesAll (node.demands .or d)

/-- The leaves of the nodes of an array, after the draft `d`. -/
def Group.leaves (d : Draft) (nodes : List Node) : List Leaf := Demand.leavesAll (Group.demands .or d nodes)

namespace Group

/-- How an array is joined does not show in its leaves. -/
theorem leavesAll_demands (join : Combinator) (d : Draft) (nodes : List Node) :
    Demand.leavesAll (Group.demands join d nodes) = Group.leaves d nodes := by
  have hnode : ∀ (d : Draft) (node : Node), Demand.leavesAll (node.demands join d) = node.leaves d := by
    intro d node
    cases node with
    | token t => rfl
    | group a =>
      simp only [Node.leaves, Node.demands, Demand.leavesAll_singleton, Demand.leaves_turn, Demand.leaves]
  induction nodes generalizing d with
  | nil => rfl
  | cons node rest ih =>
    simp only [Group.leaves, Group.demands, Demand.leavesAll_append, hnode] at ih ⊢
    rw [ih]
    rfl

theorem leaves_cons (d : Draft) (node : Node) (rest : List Node) :
    Group.leaves d (node :: rest) = node.leaves d ++ Group.leaves (d.after node) rest := by
  rw [Group.leaves, Group.demands, Demand.leavesAll_append]
  rfl

theorem leaves_append (d : Draft) (xs ys : List Node) :
    Group.leaves d (xs ++ ys) = Group.leaves d xs ++ Group.leaves (xs.foldl Draft.after d) ys := by
  induction xs generalizing d with
  | nil => rfl
  | cons x xs ih => simp only [List.cons_append, leaves_cons, ih, List.append_assoc, List.foldl_cons]

/-- The leaves of an array, turned by the markers that wait in front of it. -/
theorem leaves_array (d : Draft) (a : List Node) :
    (Node.group a).leaves d = (Group.leaves {} a).map (Leaf.turn d.pendingMarkers) := by
  rw [Node.leaves, Node.demands, Demand.leavesAll_singleton, Demand.leaves_turn, Demand.leaves, leavesAll_demands]

theorem leaves_demand (join : Combinator) (markers : List Marker) (a : List Node) :
    (Group.demand join markers a).leaves = (Group.leaves {} a).map (Leaf.turn markers) := by
  rw [Group.demand, Demand.leaves_turn, Demand.leaves, leavesAll_demands]

end Group

/-! ## Operands -/

/-- A key takes the markers that wait for it. -/
theorem Draft.setKey_fresh {d : Draft} (hd : d.key = none → d.operator = none) (key : String) :
    (d.setKey key).key = some key ∧ (d.setKey key).operator = none ∧ (d.setKey key).markers = d.pendingMarkers := by
  unfold setKey pendingMarkers isPending
  cases hkey : d.key with
  | none => simp [hd hkey]
  | some _ => simp

/-- A clause `key [operator] value`, or an array that reduces to a clause. -/
inductive Operand where
  | clause (c : Condition)
  | array (nodes : List Node) (c : Clause) (h : reduce [] nodes = .ok (some (.clause c)))

namespace Operand

def nodes : Operand → List Node
  | .clause c => .token ⟨.key, .str c.key⟩ :: Node.comparison c.operator c.value
  | .array nodes _ _ => [.group nodes]

/-- The leaf of the operand without markers in front. -/
def leaf : Operand → Leaf
  | .clause c => ⟨c, .plain⟩
  | .array _ c _ => c.leaf

/-- A key or an array stands first, where a wait ends. -/
theorem endsWait_head (x : Operand) (post : List Node) : ∀ n ∈ (x.nodes ++ post).head?, n.endsWait = true := by
  cases x <;> simp [nodes, Node.endsWait]

/-- An array that reduces to a clause has its leaf. -/
theorem leaves_of_reduce {nodes : List Node} {c : Clause} (h : reduce [] nodes = .ok (some (.clause c))) :
    Group.leaves {} nodes = [c.leaf] := by
  have hleaves := (keeps_of_reduce .or h).leaves
  rw [Demand.leavesAll_singleton, Group.leaves_demand, Leaf.map_turn_nil] at hleaves
  exact hleaves.symm

/-- **An operand becomes its leaf**, turned by the markers that wait in front of it. -/
theorem leaves_nodes {d : Draft} (hd : d.key = none → d.operator = none) (x : Operand) :
    Group.leaves d x.nodes = [x.leaf.turn d.pendingMarkers] := by
  cases x with
  | array nodes c h =>
    rw [Operand.nodes, Group.leaves_cons, Group.leaves_array, leaves_of_reduce h]
    rfl
  | clause c =>
    obtain ⟨hkey, hoperator, hmarkers⟩ := Draft.setKey_fresh hd c.key
    rw [leaf, ← hmarkers, Leaf.turn_plain]
    obtain ⟨key, operator, value⟩ := c
    cases operator <;>
      simp [Operand.nodes, Node.comparison, Group.leaves, Group.demands, Node.demands, Draft.leaf?, Draft.after,
        Demand.leavesAll, Demand.leaves, hkey, hoperator]

end Operand

/-! ## Drafts and the markers that wait in them -/

/-- Gives up a key that has been read, with or without its value. -/
def Node.clearsKey : Node → Bool
  | .group _ => true
  | .token ⟨.condition, .str word⟩ => Marker.ofCondition? word == some .not
  | _ => false

/-- There is a key among the nodes, and neither an array nor a `NOT` after it. -/
def Group.KeyStands (nodes : List Node) : Prop :=
  ∃ pre key post, nodes = pre ++ .token ⟨.key, .str key⟩ :: post ∧ ∀ n ∈ post, n.clearsKey = false

namespace Draft

/-- What one node does to the key. -/
theorem isSome_key_after (d : Draft) (node : Node) :
    (d.after node).key.isSome = true ↔
      (∃ key, node = .token ⟨.key, .str key⟩) ∨ (d.key.isSome = true ∧ node.clearsKey = false) := by
  unfold after
  split
  · simp [Node.clearsKey]
  · simp [isSome_key_setKey]
  · simp [Node.clearsKey]
  · simp [Node.clearsKey]
  · rename_i word
    cases hm : Marker.ofCondition? word with
    | none => simp [Node.clearsKey, hm]
    | some m => cases m <;> simp [Node.clearsKey, hm, withMarkers, mark]
  · rename_i t hkey hoperator hvalue hword
    have hclears : (Node.token t).clearsKey = false := by
      unfold Node.clearsKey
      split
      · rename_i heq
        cases heq
      · rename_i word heq
        cases heq
        exact absurd rfl (hword word)
      · rfl
    have hnokey : ¬ ∃ key, Node.token t = .token ⟨.key, .str key⟩ := by
      rintro ⟨key, heq⟩
      cases heq
      exact hkey key rfl
    rw [or_iff_right hnokey, hclears]
    simp

/-- The draft has a key if and only if one stands open. -/
theorem isSome_key_foldl (nodes : List Node) :
    (nodes.foldl after {}).key.isSome = true ↔ Group.KeyStands nodes := by
  induction nodes using List.reverseRecOn with
  | nil => simp [Group.KeyStands]
  | append_singleton nodes node ih =>
    rw [List.foldl_append, List.foldl_cons, List.foldl_nil, isSome_key_after, ih]
    constructor
    · rintro (⟨key, rfl⟩ | ⟨⟨pre, key, post, rfl, hpost⟩, hnode⟩)
      · exact ⟨nodes, key, [], rfl, by simp⟩
      · refine ⟨pre, key, post ++ [node], by simp, ?_⟩
        rw [List.forall_mem_append]
        exact ⟨hpost, by simpa using hnode⟩
    · rintro ⟨pre, key, post, heq, hpost⟩
      -- The last node is the key itself, or one of those that leave it open.
      rcases List.eq_nil_or_concat post with rfl | ⟨init, last, rfl⟩
      · obtain ⟨_, hnode⟩ := List.append_inj' heq rfl
        exact .inl ⟨key, by simpa using hnode⟩
      · rw [List.concat_eq_append] at heq hpost
        rw [← List.cons_append, ← List.append_assoc] at heq
        obtain ⟨rfl, hnode⟩ := List.append_inj' heq rfl
        obtain rfl : node = last := by simpa using hnode
        rw [List.forall_mem_append] at hpost
        exact .inr ⟨⟨pre, key, init, rfl, hpost.1⟩, hpost.2 node (by simp)⟩

/-- `NOT` waits whatever came before it, and `IN` if no key has been read. -/
theorem mem_pendingMarkers_after {d : Draft} {word : String} {m : Marker} (hm : Marker.ofCondition? word = some m)
    (hand : m ≠ .and) (h : m = .not ∨ d.key = none) : m ∈ (d.after (.word word)).pendingMarkers := by
  cases m with
  | and => exact absurd rfl hand
  | not => simp [after, Node.word, hm, withMarkers, pendingMarkers, isPending]
  | inList =>
    have hkey : d.key = none := by simpa using h
    simp [after, Node.word, hm, mark, pendingMarkers, isPending, hkey]

theorem pendingMarkers_after_inList {d : Draft} {word : String} (hm : Marker.ofCondition? word = some .inList)
    (h : d.key.isSome = true) : (d.after (.word word)).pendingMarkers = [] := by
  refine Settled.pendingMarkers (.inr ?_)
  simpa [after, Node.word, hm, mark] using h

/-- A run of nodes that a group has read. -/
theorem ReadFrom.foldl {conjoined : Bool} {d : Draft} {pre nodes : List Node} {news : List Expr} (h : d.ReadFrom pre)
    (hs : GivesAll conjoined d nodes news) : (nodes.foldl Draft.after d).ReadFrom (pre ++ nodes) := by
  induction hs generalizing pre with
  | nil d => simpa using h
  | cons hg _ ih =>
    rw [List.foldl_cons, List.append_cons]
    exact ih (h.after hg)

end Draft

/-! ## Operands in arrays -/

namespace Grouping

variable {conjoined : Bool}

theorem GivesAll.values_leaves {nodes : List Node} {news : List Expr} (h : GivesAll conjoined {} nodes news) :
    (Group.leaves {} nodes).map (·.condition.value) = Group.values nodes := by
  have hkeeps : Keeps news (Group.demands .or {} nodes) (Group.values nodes) := h.keeps .empty
  rw [← hkeeps.values, hkeeps.leaves]
  rfl

/-- **One array**: what stands in it stands in the array around it, after the values there, and is turned by the
markers in front. -/
theorem standsAt_array {pre post a : List Node} {news : List Expr} {l : Leaf} {before : List Json}
    (h : GivesAll conjoined {} (pre ++ .group a :: post) news) (hl : l.StandsAt before (Group.leaves {} a)) :
    (l.turn (pre.foldl Draft.after {}).pendingMarkers).StandsAt (Group.values pre ++ before)
      (Group.leaves {} (pre ++ .group a :: post)) := by
  obtain ⟨news₁, _, hpre, _⟩ := Group.exists_givesAll_of_append h
  rw [Group.leaves_append, Group.leaves_cons, Group.leaves_array, ← hpre.values_leaves]
  exact (hl.turn _).append _ _

/-- An operand stands in its array after the values there, turned by the markers that wait. -/
theorem standsAt_operand {pre post : List Node} {news : List Expr} {word : String} (x : Operand)
    (h : GivesAll conjoined {} (pre ++ .word word :: (x.nodes ++ post)) news) :
    (x.leaf.turn ((pre.foldl Draft.after {}).after (.word word)).pendingMarkers).StandsAt (Group.values pre)
      (Group.leaves {} (pre ++ .word word :: (x.nodes ++ post))) := by
  obtain ⟨news₁, news₂, hpre, hrest⟩ := Group.exists_givesAll_of_append h
  cases hrest with
  | cons hword _ =>
    have hread := (Draft.ReadFrom.empty.foldl hpre).after hword
    have hleaves := x.leaves_nodes hread.operator_eq_none
    have hnone : (Node.word word).leaves (pre.foldl Draft.after {}) = [] := rfl
    rw [Group.leaves_append, Group.leaves_cons, hnone, List.nil_append, Group.leaves_append, hleaves,
      ← hpre.values_leaves]
    exact ⟨Group.leaves {} pre, _, rfl, rfl⟩

/-- The draft after a run of nodes does not depend on the rest. -/
theorem draft_of_gather {g g' : Gathered} {nodes : List Node} (h : gather conjoined g nodes = .ok g') :
    g'.draft = nodes.foldl Draft.after g.draft := by
  induction nodes generalizing g with
  | nil =>
    cases h
    rfl
  | cons node rest ih =>
    rw [gather, bind_eq_ok] at h
    obtain ⟨g₁, hnode, hrest⟩ := h
    obtain ⟨_, _, rfl⟩ := gatherNode_eq_ok hnode
    exact ih hrest

/-- **A lost `IN`**: after a key that stands open, and where a wait ends, the array reduces as without it. -/
theorem reduce_inList_of_keyStands {pre post : List Node} {word : String}
    (hm : Marker.ofCondition? word = some .inList) (hkey : Group.KeyStands pre)
    (hpost : ∀ n ∈ post.head?, n.endsWait = true) (markers : List Marker) :
    reduce markers (pre ++ .word word :: post) = reduce markers (pre ++ post) := by
  have hvalue : ∀ n ∈ [Node.word word], isValue n = false ∧ isGroup n = false := by
    intro n hn
    obtain rfl := List.mem_singleton.mp hn
    exact ⟨rfl, rfl⟩
  have hconjoined : isConjoined (pre ++ ([.word word] ++ post)) = isConjoined (pre ++ ([] ++ post)) :=
    isConjoined_congr pre post hvalue fun n hn => absurd hn List.not_mem_nil
  rw [List.singleton_append, List.nil_append] at hconjoined
  rw [reduce_eq, reduce_eq, hconjoined, gather_append, gather_append, map_bind, map_bind]
  refine congrArg (· >>= _) (bind_congr_ok fun g hg => ?_)
  -- Both drafts have a key, with the `IN` on it or not, and neither outlives the node where the wait ends.
  have hsome : g.draft.key.isSome = true := by
    rw [draft_of_gather hg]
    exact (Draft.isSome_key_foldl pre).mpr hkey
  have hword : g.condition word = { g with draft := g.draft.mark .inList } := by
    simp only [Gathered.condition, hm]
  show (gather _ (g.condition word) post).map _ = _
  rw [hword]
  exact gather_congr { g with draft := g.draft.mark .inList } g rfl (.inr hsome) (.inr hsome) hpost _

end Grouping

/-! ## Operands in arrays in arrays -/

namespace ArrayPath

/-- The leaf as it is turned by the markers in front of the arrays on the way. -/
def turned : ArrayPath → Leaf → Leaf
  | [], l => l
  | (pre, _) :: path, l => (turned path l).turn (pre.foldl Draft.after {}).pendingMarkers

/-- The values before the array at the end of the way. -/
def valuesBefore : ArrayPath → List Json
  | [] => []
  | (pre, _) :: path => Group.values pre ++ valuesBefore path

theorem turned_turn (path : ArrayPath) (l : Leaf) (markers : List Marker) :
    path.turned (l.turn markers) = (path.turned l).turn markers := by
  induction path with
  | nil => rfl
  | cons around path ih =>
    rw [turned, turned, ih]
    exact Leaf.turn_comm _ _ _

theorem accepted (path : ArrayPath) {a : List Node} (h : Group.Accepted (path.fill a)) : Group.Accepted a := by
  induction path with
  | nil => exact h
  | cons around path ih => exact ih (h.of_mem (List.mem_append_right _ List.mem_cons_self))

/-- **All arrays on the way**, by induction from the outermost. -/
theorem standsAt (path : ArrayPath) {a : List Node} {l : Leaf} {before : List Json}
    (h : Group.Accepted (path.fill a)) (hl : l.StandsAt before (Group.leaves {} a)) :
    (path.turned l).StandsAt (path.valuesBefore ++ before) (Group.leaves {} (path.fill a)) := by
  induction path with
  | nil => exact hl
  | cons around path ih =>
    have hinner := ih (h.of_mem (List.mem_append_right _ List.mem_cons_self))
    obtain ⟨markers, member, hreduce⟩ := h
    obtain ⟨news, hall, _⟩ := reduce_eq_ok hreduce
    rw [valuesBefore, List.append_assoc]
    exact standsAt_array hall hinner

end ArrayPath

end DocQuery
