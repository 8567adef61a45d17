import DocQuery.Proofs.Grouping.Meaning
import DocQuery.Proofs.Simulation

/-!
# An empty array at the end of an array

An empty array gives no member, so it says nothing by itself. But a group marks its clauses if it has a value and an
array, whatever the array holds, and so an empty array marks a clause that would stand alone (`Group.isLone`).

The mark makes a difference in the first array around that has another value, where the clause is a member among others:
if that array is joined by `AND`, all its members are required anyway, and if it is joined by `OR`, a mark makes a
required condition of an alternative. `ArrayPath.combinator?` is the combinator of that array, and `Expr.Variant` says
what the mark does to the expression (`ArrayPath.reduce_append_empty`).
-/

namespace DocQuery

open Grouping

/-! ## Arrays inside arrays -/

/-- The way from an array down to one inside it: the nodes before and after each array on the way. -/
abbrev ArrayPath := List (List Node × List Node)

namespace ArrayPath

/-- The array with `nodes` at the end of the way. -/
def fill (nodes : List Node) : ArrayPath → List Node
  | [] => nodes
  | (pre, post) :: rest => pre ++ .group (fill nodes rest) :: post

/-- The combinator under which a value at the end of the way meets another one: that of the first array around it with
two values. -/
def combinator? (nodes : List Node) : ArrayPath → Option Combinator
  | [] => none
  | (pre, post) :: rest =>
    let around := pre ++ .group (fill nodes rest) :: post
    (combinator? nodes rest).or (if 1 < (Group.values around).length then some (Group.join around) else none)

end ArrayPath

/-- One value, and no array. -/
def Group.isLone (nodes : List Node) : Bool := nodes.countP isValue == 1 && !nodes.any isGroup

/-! ## Marked clauses -/

/-- The same condition, without a mark and with it. -/
structure Clause.Tagging (c c' : Clause) : Prop where
  simple : c.Simple
  simple' : c'.Simple
  leaf : c'.leaf = c.leaf
  untagged : c.markers.contains .and = false
  tagged : c'.markers.contains .and = true

theorem Clause.Tagging.turned {c c' : Clause} (h : Tagging c c') (markers : List Marker) :
    Tagging (c.turned markers) (c'.turned markers) where
  simple := simple_turned markers h.simple
  simple' := simple_turned markers h.simple'
  leaf := by rw [leaf_turned markers h.simple, leaf_turned markers h.simple', h.leaf]
  untagged := by rw [contains_and_turned, h.untagged]
  tagged := by rw [contains_and_turned, h.tagged]

namespace Expr

/-- The same expression, but for a mark on one clause. The combinator is that of the group with the clause, if there is
one. -/
inductive Variant : Option Combinator → Expr → Expr → Prop
  | clause {c c' : Clause} (h : Clause.Tagging c c') : Variant none (.clause c) (.clause c')
  | group {k k' : Option Combinator} {join : Combinator} {e e' : Expr} (before after : List Expr)
      (h : Variant k e e') (hk : k' = k.or (some join)) :
      Variant k' (.group join (before ++ e :: after)) (.group join (before ++ e' :: after))

theorem inherit_clause (markers : List Marker) (c : Clause) :
    (Expr.clause c).inherit markers = .ok (.clause (c.turned markers)) := by
  cases markers with
  | nil => rfl
  | cons m ms =>
    have hok : ((Expr.clause c).inherit (m :: ms)).isOk = true := rfl
    obtain ⟨e', he⟩ := exists_eq_ok hok
    rcases inherit_eq_ok he with ⟨hnil, _⟩ | ⟨c', hc, rfl⟩
    · cases hnil
    · cases hc
      exact he

/-- Markers turn both expressions, or are refused by both. -/
theorem Variant.inherit {k : Option Combinator} {e e' : Expr} (h : Variant k e e') (markers : List Marker) :
    Agree (Variant k) (e.inherit markers) (e'.inherit markers) := by
  cases h with
  | clause h =>
    rw [inherit_clause, inherit_clause]
    exact .ok (.clause (h.turned markers))
  | @group _ _ join e e' before after h hk =>
    cases markers with
    | nil => exact .ok (.group before after h hk)
    | cons m ms =>
      have hlen : (before ++ e :: after).length = (before ++ e' :: after).length := by simp
      simp only [Expr.inherit, List.isEmpty_cons, Bool.false_eq_true, ↓reduceIte, hlen]
      exact .error _

theorem Populated.leaves_ne_nil {e : Expr} (h : e.Populated) : e.leaves ≠ [] := by
  rw [← leaves_demand .or]
  exact (h.demand .or).leaves_ne_nil

/-- Every member has a leaf. -/
theorem AllPopulated.length_le {members : List Expr} (h : AllPopulated members) :
    members.length ≤ (leavesAll members).length := by
  induction members with
  | nil => exact Nat.zero_le _
  | cons e rest ih =>
    have hrest := ih h.2
    have hpos := List.length_pos_iff.mpr h.1.leaves_ne_nil
    rw [leavesAll_cons, List.length_append, List.length_cons]
    omega

end Expr

/-! ## Changes of the members -/

/-- A member as a group keeps it that marks its clauses. -/
def Expr.marked : Expr → Expr
  | .clause c => .clause (c.mark .and)
  | .group join members => .group join members

namespace Grouping

/-- What has been read of a group, with its members changed. -/
def Gathered.mapMembers (φ : List Expr → List Expr) (g : Gathered) : Gathered := { g with members := φ g.members }

section Change

variable {φ : List Expr → List Expr} {conjoined conjoined' : Bool}

/-- A change of the members that keeps up with new ones can be made before or after a node is read. -/
theorem gatherNode_mapMembers
    (hclause : ∀ ms c, φ (ms ++ [.clause (Clause.tag conjoined c)]) = φ ms ++ [.clause (Clause.tag conjoined' c)])
    {node : Node} (harray : isGroup node = true → ∀ ms new, φ (ms ++ new) = φ ms ++ new) (g : Gathered) :
    gatherNode conjoined' (g.mapMembers φ) node = (gatherNode conjoined g node).map (Gathered.mapMembers φ) := by
  cases node with
  | group nodes =>
    rw [gatherNode_group, gatherNode_group, map_bind]
    refine bind_congr_ok fun member _ => ?_
    simp only [Gathered.mapMembers, Except.map, harray rfl]
  | token t =>
    obtain ⟨kind, value⟩ := t
    cases kind <;> simp only [gatherNode, Gathered.token] <;> rw [map_bind]
    case identifier =>
      refine bind_congr_ok fun name _ => ?_
      split <;> rfl
    case key => rfl
    case operator =>
      refine bind_congr_ok fun operator _ => ?_
      rw [map_bind]
      rfl
    case condition =>
      refine bind_congr_ok fun word _ => ?_
      simp only [condition_eq]
      rfl
    case value =>
      refine bind_congr_ok fun completed _ => ?_
      have hnew := hclause g.members completed.1
      simp only [Clause.tag] at hnew
      simp only [Gathered.mapMembers, ← hnew]
      rfl

theorem gather_mapMembers
    (hclause : ∀ ms c, φ (ms ++ [.clause (Clause.tag conjoined c)]) = φ ms ++ [.clause (Clause.tag conjoined' c)])
    {nodes : List Node} (harray : nodes.any isGroup = true → ∀ ms new, φ (ms ++ new) = φ ms ++ new) (g : Gathered) :
    gather conjoined' (g.mapMembers φ) nodes = (gather conjoined g nodes).map (Gathered.mapMembers φ) := by
  induction nodes generalizing g with
  | nil => rfl
  | cons node rest ih =>
    have hnode : isGroup node = true → ∀ ms new, φ (ms ++ new) = φ ms ++ new := fun h =>
      harray (by rw [List.any_cons, h, Bool.true_or])
    have hrest : rest.any isGroup = true → ∀ ms new, φ (ms ++ new) = φ ms ++ new := fun h =>
      harray (by rw [List.any_cons, h, Bool.or_true])
    rw [gather, gather, map_bind, gatherNode_mapMembers hclause hnode]
    cases gatherNode conjoined g node with
    | error e => rfl
    | ok g₁ => exact ih hrest g₁

end Change

/-- The nodes of a group do not look at the members before them. -/
theorem gather_prepend (conjoined : Bool) (members : List Expr) (nodes : List Node) (g : Gathered) :
    gather conjoined (g.mapMembers (members ++ ·)) nodes =
      (gather conjoined g nodes).map (Gathered.mapMembers (members ++ ·)) := by
  refine gather_mapMembers (fun ms c => ?_) (fun _ ms new => ?_) g
  · exact (List.append_assoc _ _ _).symm
  · exact (List.append_assoc _ _ _).symm

/-! ## An array that ends with an empty one -/

/-- The empty array leaves the members and the combinator, and may change the marks. -/
theorem reduce_append_empty (markers : List Marker) (nodes : List Node) :
    reduce markers (nodes ++ [.group []]) =
      gather (isConjoined (nodes ++ [.group []])) {} nodes >>= fun g => g.close markers := by
  rw [reduce, gather_append, bind_assoc]
  refine bind_congr_ok fun g _ => ?_
  have hempty : reduce g.draft.pendingMarkers [] = .ok none := rfl
  simp only [gather, gatherNode_group, hempty]
  show Gathered.close { g with draft := {}, members := g.members ++ [] } markers = _
  rw [List.append_nil]
  rfl

theorem isConjoined_append_empty (nodes : List Node) :
    isConjoined (nodes ++ [.group []]) = decide (0 < nodes.countP isValue) := by
  have hone : 1 < nodes.countP isValue → 0 < nodes.countP isValue := fun h => by omega
  by_cases h : 1 < nodes.countP isValue
  · simp [isConjoined, isValue, isGroup, h, hone h]
  · simp [isConjoined, isValue, isGroup, h]

/-- In any other array, the clauses are marked or not as before. -/
theorem reduce_append_empty_of_not_lone {nodes : List Node} (h : Group.isLone nodes = false) (markers : List Marker) :
    reduce markers (nodes ++ [.group []]) = reduce markers nodes := by
  have hconjoined : isConjoined (nodes ++ [.group []]) = isConjoined nodes := by
    rw [isConjoined_append_empty, isConjoined]
    simp only [Group.isLone, Bool.and_eq_false_iff, beq_eq_false_iff_ne, Bool.not_eq_false'] at h
    by_cases htwo : 1 < nodes.countP isValue
    · have hpos : 0 < nodes.countP isValue := by omega
      simp [htwo, hpos]
    · rcases h with h | h
      · have hzero : ¬ 0 < nodes.countP isValue := by omega
        simp [htwo, hzero]
      · simp [htwo, h]
  rw [reduce_append_empty, hconjoined, reduce]

/-- Two arrays that reduce to the same expression, but for a mark. -/
def Varied (k : Option Combinator) (member member' : Option Expr) : Prop :=
  ∃ e e', member = some e ∧ member' = some e' ∧ Expr.Variant k e e'

/-- Without arrays, each value gives a clause, and nothing marks it. -/
theorem GivesAll.clauses {d : Draft} {nodes : List Node} {news : List Expr} (h : GivesAll false d nodes news)
    (hgroup : nodes.any isGroup = false) (hd : d.Simple) :
    news.length = nodes.countP isValue ∧
      ∀ e ∈ news, ∃ c, e = .clause c ∧ c.Simple ∧ c.markers.contains .and = false := by
  induction h with
  | nil d => simp
  | @cons d node rest new news hnode _ ih =>
    rw [List.any_cons, Bool.or_eq_false_iff] at hgroup
    obtain ⟨hlen, hclauses⟩ := ih hgroup.2 (hd.after node)
    rw [List.length_append, List.forall_mem_append, List.countP_cons, hlen]
    cases hnode with
    | clause value _ _ =>
      refine ⟨by simp [isValue, Nat.add_comm], ?_, hclauses⟩
      rw [List.forall_mem_singleton]
      exact ⟨_, rfl, hd.negation, hd.untagged⟩
    | token payload hkind _ =>
      refine ⟨?_, by simp, hclauses⟩
      rcases hkind with rfl | rfl | rfl <;> simp [isValue]
    | array _ => simp [isGroup] at hgroup

/-- **An empty array marks a lone value**, and does nothing else. -/
theorem reduce_append_empty_of_lone {nodes : List Node} (h : Group.isLone nodes = true) (markers : List Marker) :
    Agree (Varied none) (reduce markers nodes) (reduce markers (nodes ++ [.group []])) := by
  simp only [Group.isLone, Bool.and_eq_true, beq_iff_eq, Bool.not_eq_true'] at h
  obtain ⟨hvalue, hgroup⟩ := h
  have hconjoined : isConjoined nodes = false := by simp [isConjoined, hvalue, hgroup]
  have hclause : ∀ (ms : List Expr) (c : Clause), List.map Expr.marked (ms ++ [.clause (c.tag false)]) =
      List.map Expr.marked ms ++ [.clause (c.tag true)] := fun ms c => by simp [Expr.marked, Clause.tag]
  have hmarked : gather true {} nodes = (gather false {} nodes).map (Gathered.mapMembers (List.map Expr.marked)) :=
    gather_mapMembers hclause (fun h => by rw [hgroup] at h; cases h) {}
  rw [reduce_append_empty, isConjoined_append_empty, reduce, hconjoined, hvalue, decide_eq_true Nat.one_pos, hmarked]
  cases hg : gather false {} nodes with
  | error e => exact .error e
  | ok g =>
    obtain ⟨news, hall, hmembers, _⟩ := gather_eq_ok hg
    obtain ⟨hlen, hclauses⟩ := hall.clauses hgroup .empty
    obtain ⟨e, rfl⟩ := List.length_eq_one_iff.mp (hlen.trans hvalue)
    obtain ⟨c, rfl, hsimple, huntagged⟩ := hclauses e List.mem_cons_self
    have htagging : Clause.Tagging c (c.mark .and) :=
      ⟨hsimple, Clause.simple_tag true hsimple, c.leaf_mark_and, huntagged, rfl⟩
    rw [List.nil_append] at hmembers
    show Agree (Varied none) (g.close markers) ((g.mapMembers (List.map Expr.marked)).close markers)
    simp only [Gathered.close, Gathered.mapMembers, hmembers, List.map_cons, List.map_nil, Expr.marked]
    refine ((Expr.Variant.clause htagging).inherit markers).bind fun e e' he => .ok ?_
    exact ⟨e, e', rfl, rfl, he⟩

/-! ## The arrays around it -/

section Around

variable {k : Option Combinator} {a a' : List Node}

/-- What has been read of a group in which one member varies. -/
theorem gather_varied (h : ∀ markers, Agree (Varied k) (reduce markers a) (reduce markers a')) (conjoined : Bool)
    (pre post : List Node) :
    Agree (fun g g' => ∃ before e e' after, Expr.Variant k e e' ∧ g.members = before ++ e :: after ∧
        g' = g.mapMembers fun _ => before ++ e' :: after)
      (gather conjoined {} (pre ++ .group a :: post)) (gather conjoined {} (pre ++ .group a' :: post)) := by
  rw [gather_append, gather_append]
  refine .bind_same _ fun g => ?_
  simp only [gather, gatherNode_group, bind_assoc]
  refine (h _).bind fun member member' hmember => ?_
  obtain ⟨e, e', rfl, rfl, hvariant⟩ := hmember
  have hafter : ∀ x : Expr, gather conjoined ⟨{}, g.combinator, g.members ++ [x]⟩ post =
      (gather conjoined ⟨{}, g.combinator, []⟩ post).map (Gathered.mapMembers ((g.members ++ [x]) ++ ·)) := by
    intro x
    rw [← gather_prepend, Gathered.mapMembers, List.append_nil]
  show Agree _ (gather conjoined ⟨{}, g.combinator, g.members ++ [e]⟩ post)
    (gather conjoined ⟨{}, g.combinator, g.members ++ [e']⟩ post)
  rw [hafter, hafter]
  refine .map_same _ fun g₁ => ⟨g.members, e, e', g₁.members, hvariant, ?_, ?_⟩
  · simp [Gathered.mapMembers]
  · simp [Gathered.mapMembers]

theorem Gathered.close_of_two {g : Gathered} (h : 2 ≤ g.members.length) (markers : List Marker) :
    g.close markers = (Expr.group (g.combinator.getD .or) g.members).inherit markers >>= fun e => .ok (some e) := by
  unfold Gathered.close
  split
  · rename_i hm
    simp [hm] at h
  · rename_i hm
    simp [hm] at h
  · rfl

/-- **One array further out.** A clause that is alone there too goes on with its mark; otherwise the array is the one in
which it matters. -/
theorem reduce_varied (h : ∀ markers, Agree (Varied k) (reduce markers a) (reduce markers a')) (pre post : List Node)
    (markers : List Marker) :
    Agree (Varied (k.or (if 1 < (Group.values (pre ++ .group a :: post)).length
        then some (Group.join (pre ++ .group a :: post)) else none)))
      (reduce markers (pre ++ .group a :: post)) (reduce markers (pre ++ .group a' :: post)) := by
  rw [reduce, reduce, isConjoined_array pre post a' a]
  refine (gather_varied h _ pre post).bind_ok fun g g' hg hvaried => ?_
  obtain ⟨before, e, e', after, hvariant, hmembers, rfl⟩ := hvaried
  obtain ⟨news, hall, hnews, hcombinator⟩ := gather_eq_ok hg
  rw [List.nil_append] at hnews
  have hjoin : g.combinator.getD .or = Group.join (pre ++ .group a :: post) := by
    simp [hcombinator, lastCombinator, Group.join]
  have hkeeps : Keeps news (Group.demands .or {} (pre ++ .group a :: post)) (Group.values (pre ++ .group a :: post)) :=
    GivesAll.keeps .empty hall
  have hvalues : (Group.values (pre ++ .group a :: post)).length = (Expr.leavesAll g.members).length := by
    rw [← hkeeps.values, List.length_map, hnews]
  generalize Group.values (pre ++ .group a :: post) = values at hvalues
  generalize Group.join (pre ++ .group a :: post) = join at hjoin
  by_cases halone : before = [] ∧ after = []
  · obtain ⟨rfl, rfl⟩ := halone
    have hk : k.or (if 1 < values.length then some join else none) = k := by
      cases hvariant with
      | clause _ => simp [hvalues, hmembers, Expr.leavesAll, Expr.clausesAll, Expr.clauses]
      | group _ _ _ hk =>
        rw [hk, Option.or_assoc]
        rfl
    rw [hk]
    simp only [Gathered.close, Gathered.mapMembers, hmembers, List.nil_append]
    exact (hvariant.inherit markers).bind fun e e' he => .ok ⟨e, e', rfl, rfl, he⟩
  · have hlen : 2 ≤ (before ++ e :: after).length := by
      rw [List.length_append, List.length_cons]
      rcases not_and_or.mp halone with hne | hne
      · have := List.length_pos_iff.mpr hne
        omega
      · have := List.length_pos_iff.mpr hne
        omega
    have htwo : 1 < values.length := by
      have hle := hkeeps.populated.length_le
      rw [← hnews, hmembers] at hle
      rw [hvalues, hmembers]
      omega
    rw [if_pos htwo, Gathered.close_of_two (by rw [hmembers]; exact hlen),
      Gathered.close_of_two (by simpa [Gathered.mapMembers] using hlen)]
    have hgroup : Expr.Variant (k.or (some join)) (.group join (before ++ e :: after))
        (.group join (before ++ e' :: after)) := .group before after hvariant rfl
    simp only [Gathered.mapMembers, hmembers, hjoin]
    exact (hgroup.inherit markers).bind fun e e' he => .ok ⟨e, e', rfl, rfl, he⟩

end Around

end Grouping

namespace ArrayPath

/-- Arrays that reduce alike can be exchanged at the end of any way. -/
theorem reduce_congr {a a' : List Node} (h : ∀ markers, reduce markers a = reduce markers a') (path : ArrayPath)
    (markers : List Marker) : reduce markers (path.fill a) = reduce markers (path.fill a') := by
  induction path generalizing markers with
  | nil => exact h markers
  | cons around rest ih => exact reduce_congr_array ih around.1 around.2 markers

/-- **An empty array at the end of an array is not seen**, unless that array has one value and no array. -/
theorem reduce_append_empty_of_not_lone {nodes : List Node} (h : Group.isLone nodes = false) (path : ArrayPath)
    (markers : List Marker) : reduce markers (path.fill (nodes ++ [.group []])) = reduce markers (path.fill nodes) :=
  reduce_congr (Grouping.reduce_append_empty_of_not_lone h) path markers

/-- **An empty array after a lone value marks the clause of that value**, in the first array around it with another
value. -/
theorem reduce_append_empty_of_lone {nodes : List Node} (h : Group.isLone nodes = true) (path : ArrayPath)
    (markers : List Marker) :
    Agree (Varied (path.combinator? nodes)) (reduce markers (path.fill nodes))
      (reduce markers (path.fill (nodes ++ [.group []]))) := by
  induction path generalizing markers with
  | nil => exact Grouping.reduce_append_empty_of_lone h markers
  | cons around rest ih => exact reduce_varied ih around.1 around.2 markers

end ArrayPath

end DocQuery
