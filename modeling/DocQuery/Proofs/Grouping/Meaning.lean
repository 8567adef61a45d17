import DocQuery.Proofs.Grouping.Leaves
import Mathlib.Data.List.Forall2

/-!
# Reduced groups keep their meaning

An expression asks for something too (`Expr.demand`): a clause that is marked with `AND` is a leaf, and any other
member is an array under the combinator of its group. If every array has a value, then the expression that an array
reduces to asks for what the array does (`stands_of_reduce`).

The marks and the flattening meet here. Clauses are marked if there is a second value or an array beside them, and a
group flattens if it has one member; the two agree since an array with a value always gives a member.
-/

namespace DocQuery

/-! ## Arrays with values -/

def Node.HasValues (node : Node) : Prop := ∀ a ∈ node.arrays, Group.values a ≠ []

/-- Every array among the nodes, at any depth, has a value. -/
def Group.HasValues (nodes : List Node) : Prop := ∀ a ∈ Group.arrays nodes, Group.values a ≠ []

namespace Group

open Grouping

theorem hasValues_cons {node : Node} {rest : List Node} :
    HasValues (node :: rest) ↔ node.HasValues ∧ HasValues rest := by
  simp only [HasValues, Node.HasValues, Group.arrays, List.forall_mem_append]

/-- Each value and each array among the nodes has a value of its own. -/
theorem countP_le_length_values {nodes : List Node} (h : HasValues nodes) :
    nodes.countP isValue + nodes.countP isGroup ≤ (values nodes).length := by
  induction nodes with
  | nil => simp
  | cons node rest ih =>
    obtain ⟨hnode, hrest⟩ := hasValues_cons.mp h
    have hle := ih hrest
    rw [values_cons, List.length_append]
    cases node with
    | token t => cases hk : t.kind <;> simp [isValue, isGroup, Node.values, Node.tokens, hk] <;> omega
    | group nodes =>
      have hpos : 0 < (Node.group nodes).values.length := List.length_pos_iff.mpr (hnode nodes (by simp [Node.arrays]))
      simp only [List.countP_cons, isValue, isGroup]
      simp only [Bool.false_eq_true, ↓reduceIte]
      omega

/-- Without arrays, there are no other values. -/
theorem length_values_of_no_group {nodes : List Node} (h : nodes.any isGroup = false) :
    (values nodes).length = nodes.countP isValue := by
  induction nodes with
  | nil => rfl
  | cons node rest ih =>
    rw [List.any_cons, Bool.or_eq_false_iff] at h
    rw [values_cons, List.length_append, ih h.2]
    cases node with
    | token t => cases hk : t.kind <;> simp [isValue, Node.values, Node.tokens, hk, Nat.add_comm]
    | group nodes => simp [isGroup] at h

/-- A group whose clauses are marked has two values. -/
theorem two_le_length_values {nodes : List Node} (h : HasValues nodes) (hc : isConjoined nodes = true) :
    2 ≤ (values nodes).length := by
  have hle := countP_le_length_values h
  simp only [isConjoined, Bool.or_eq_true, Bool.and_eq_true, decide_eq_true_eq] at hc
  rcases hc with hc | ⟨hv, hg⟩
  · omega
  · have hpos : 0 < nodes.countP isGroup := List.countP_pos_iff.mpr (List.any_eq_true.mp hg)
    omega

/-- A group whose clauses are not marked has no value beside another member. -/
theorem length_values_eq_one {nodes : List Node} (hc : isConjoined nodes = false) (hv : nodes.countP isValue ≠ 0) :
    (values nodes).length = 1 := by
  simp only [isConjoined, Bool.or_eq_false_iff, Bool.and_eq_false_iff, decide_eq_false_iff_not] at hc
  rcases hc.2 with h | h
  · omega
  · rw [length_values_of_no_group h]
    omega

end Group

/-! ## What an expression asks for -/

namespace Expr

mutual

/-- The demand of a member in a group under `join`. -/
def demand (join : Combinator) : Expr → Demand
  | .clause c => if c.markers.contains .and then .leaf c.leaf else .array join [.leaf c.leaf]
  | .group inner members => .array join (demandAll inner members)

def demandAll (join : Combinator) : List Expr → List Demand
  | [] => []
  | e :: rest => e.demand join :: demandAll join rest

end

theorem demandAll_append (join : Combinator) : ∀ xs ys : List Expr,
    demandAll join (xs ++ ys) = demandAll join xs ++ demandAll join ys
  | [], _ => rfl
  | x :: xs, ys => by rw [List.cons_append, demandAll, demandAll, demandAll_append join xs ys, List.cons_append]

mutual

theorem leaves_demand (join : Combinator) : ∀ e : Expr, (e.demand join).leaves = e.leaves
  | .clause c => by
    rw [demand]
    split <;> simp [Demand.leaves, Demand.leavesAll, leaves, clauses]
  | .group inner members => by
    rw [demand, Demand.leaves, leavesAll_demandAll inner members]
    rfl

theorem leavesAll_demandAll (join : Combinator) :
    ∀ members : List Expr, Demand.leavesAll (demandAll join members) = leavesAll members
  | [] => rfl
  | e :: rest => by
    rw [demandAll, Demand.leavesAll, leaves_demand join e, leavesAll_demandAll join rest, leavesAll_cons]

end

mutual

theorem Populated.demand (join : Combinator) : ∀ {e : Expr}, e.Populated → (e.demand join).Populated
  | .clause c, _ => by
    rw [Expr.demand]
    split
    · trivial
    · exact ⟨by simp [Demand.leavesAll, Demand.leaves], trivial, trivial⟩
  | .group inner [], h => absurd rfl h.1
  | .group inner (e :: rest), h => by
    refine ⟨?_, AllPopulated.demandAll inner h.2⟩
    have hne := (Populated.demand inner h.2.1).leaves_ne_nil
    simp [demandAll, Demand.leavesAll, hne]

theorem AllPopulated.demandAll (join : Combinator) :
    ∀ {members : List Expr}, AllPopulated members → Demand.AllPopulated (demandAll join members)
  | [], _ => trivial
  | _ :: _, h => ⟨Populated.demand join h.1, AllPopulated.demandAll join h.2⟩

end

section Meaning

variable {style : LikeStyle} {V : String → Json → Prop}

theorem holds_demand_clause (join : Combinator) (c : Clause) :
    ((clause c).demand join).Holds style V ↔ c.leaf.Holds style V := by
  rw [demand]
  split
  · rw [Demand.Holds]
  · rw [Demand.holds_array, Demand.together_singleton, Demand.Holds]

/-- Whether a member holds does not depend on how it is joined. -/
theorem holds_demand_congr (join join' : Combinator) (e : Expr) :
    (e.demand join).Holds style V ↔ (e.demand join').Holds style V := by
  cases e with
  | clause c => rw [holds_demand_clause, holds_demand_clause]
  | group inner members => rw [demand, demand, Demand.holds_array, Demand.holds_array]

end Meaning

/-- A member that is not marked is joined by the combinator of its group. -/
theorem isAlternative_demand {e : Expr} (h : e.isTagged = false) (join : Combinator) (parts : List Demand) :
    (e.demand join).isAlternative = (Demand.array join parts).isAlternative := by
  cases e with
  | clause c =>
    rw [demand, if_neg (by simpa [isTagged] using h)]
    cases join <;> rfl
  | group inner members => cases join <;> rfl

end Expr

namespace Demand

variable {style : LikeStyle} {V : String → Json → Prop}

/-- Two demands that the array around them cannot tell apart. -/
def Same (style : LikeStyle) (V : String → Json → Prop) (d d' : Demand) : Prop :=
  d.isAlternative = d'.isAlternative ∧ (d.Holds style V ↔ d'.Holds style V)

theorem Same.refl (d : Demand) : Same style V d d := ⟨rfl, Iff.rfl⟩

/-- Such demands can be exchanged one by one, among those that are required and among the alternatives. -/
theorem forall₂_same {ds ds' : List Demand} (h : List.Forall₂ (Same style V) ds ds') :
    ((∀ d ∈ ds, d.isAlternative = false → d.Holds style V) ↔ ∀ d ∈ ds', d.isAlternative = false → d.Holds style V) ∧
      ((∃ d ∈ ds, d.isAlternative = true) ↔ ∃ d ∈ ds', d.isAlternative = true) ∧
      ((∃ d ∈ ds, d.isAlternative = true ∧ d.Holds style V) ↔
        ∃ d ∈ ds', d.isAlternative = true ∧ d.Holds style V) := by
  induction h with
  | nil => simp
  | cons hd _ ih =>
    obtain ⟨halt, hholds⟩ := hd
    obtain ⟨hall, hany, hsome⟩ := ih
    refine ⟨?_, ?_, ?_⟩
    · rw [List.forall_mem_cons, List.forall_mem_cons, halt, hholds, hall]
    · simp only [List.mem_cons, exists_eq_or_imp, halt, hany]
    · simp only [List.mem_cons, exists_eq_or_imp, halt, hholds, hsome]

theorem together_congr {ds ds' : List Demand} (h : List.Forall₂ (Same style V) ds ds') :
    Together style V ds ↔ Together style V ds' := by
  obtain ⟨hall, hany, hsome⟩ := forall₂_same h
  rw [Together, Together, hall, hany, hsome]

end Demand

/-! ## Reduction -/

/-- Members that ask for the same as some demands. While clauses are not marked, a value may stand for an array. -/
structure Agrees (style : LikeStyle) (V : String → Json → Prop) (conjoined : Bool) (join : Combinator)
    (nodes : List Node) (members : List Expr) (demands : List Demand) : Prop where
  tagged : ∀ e ∈ members, e.isTagged = true → conjoined = true
  populated : Demand.AllPopulated demands
  same : conjoined = true ∨ nodes.countP Grouping.isValue = 0 →
    List.Forall₂ (Demand.Same style V) (Expr.demandAll join members) demands

theorem Demand.allPopulated_append : ∀ xs ys : List Demand,
    AllPopulated (xs ++ ys) ↔ AllPopulated xs ∧ AllPopulated ys
  | [], ys => by simp [AllPopulated]
  | x :: xs, ys => by rw [List.cons_append, AllPopulated, AllPopulated, allPopulated_append xs ys, and_assoc]

theorem Agrees.append {style : LikeStyle} {V : String → Json → Prop} {conjoined : Bool} {join : Combinator}
    {n₁ n₂ : List Node} {m₁ m₂ : List Expr} {ds₁ ds₂ : List Demand} (h₁ : Agrees style V conjoined join n₁ m₁ ds₁)
    (h₂ : Agrees style V conjoined join n₂ m₂ ds₂) :
    Agrees style V conjoined join (n₁ ++ n₂) (m₁ ++ m₂) (ds₁ ++ ds₂) where
  tagged := List.forall_mem_append.mpr ⟨h₁.tagged, h₂.tagged⟩
  populated := (Demand.allPopulated_append ds₁ ds₂).mpr ⟨h₁.populated, h₂.populated⟩
  same hc := by
    rw [Expr.demandAll_append]
    rw [List.countP_append, Nat.add_eq_zero_iff] at hc
    exact List.rel_append (h₁.same (hc.imp_right And.left)) (h₂.same (hc.imp_right And.right))

namespace Grouping

variable {style : LikeStyle} {V : String → Json → Prop}

/-- What the members of a group ask for together is what its nodes do. -/
theorem together_of_agrees {nodes : List Node} {members : List Expr} {join : Combinator}
    (hg : GivesAll (isConjoined nodes) {} nodes members)
    (ha : Agrees style V (isConjoined nodes) join nodes members (Group.demands join {} nodes)) :
    Demand.Together style V (Expr.demandAll join members) ↔
      Demand.Together style V (Group.demands join {} nodes) := by
  by_cases hc : isConjoined nodes = true ∨ nodes.countP isValue = 0
  · exact Demand.together_congr (ha.same hc)
  · -- One value alone: it is not marked, but nothing else is there to be joined with.
    simp only [not_or, Bool.not_eq_true] at hc
    have hkeeps : Keeps members (Group.demands join {} nodes) (Group.values nodes) := GivesAll.keeps .empty hg
    have hlen : (Expr.leavesAll members).length = 1 := by
      rw [← List.length_map, hkeeps.values]
      exact Group.length_values_eq_one hc.1 hc.2
    obtain ⟨l, hl⟩ := List.length_eq_one_iff.mp hlen
    rw [Demand.together_of_leaves_singleton _ (Expr.AllPopulated.demandAll join hkeeps.populated)
        ((Expr.leavesAll_demandAll join members).trans hl),
      Demand.together_of_leaves_singleton _ ha.populated (hkeeps.leaves.symm.trans hl)]

/-- An expression that stands for the array it was reduced from. -/
structure Stands (style : LikeStyle) (V : String → Json → Prop) (join : Combinator) (markers : List Marker)
    (nodes : List Node) (e : Expr) : Prop where
  untagged : e.isTagged = false
  populated : (Group.demand join markers nodes).Populated
  same : Demand.Same style V (e.demand join) (Group.demand join markers nodes)

/-- Reduction, once the members of the group are known to agree with its nodes. -/
theorem stands_of_agrees {nodes : List Node} {markers : List Marker} {member : Option Expr} (join : Combinator)
    (hagrees : ∀ news, GivesAll (isConjoined nodes) {} nodes news →
      Agrees style V (isConjoined nodes) (Group.join nodes) nodes news (Group.demands (Group.join nodes) {} nodes))
    (hne : Group.values nodes ≠ []) (hvalues : Group.HasValues nodes) (h : reduce markers nodes = .ok member) :
    ∃ e, member = some e ∧ Stands style V join markers nodes e := by
  obtain ⟨news, hall, hclose⟩ := reduce_eq_ok h
  have hkeeps := keeps_of_reduce join h
  have ha := hagrees news hall
  have hnews : Keeps news (Group.demands (Group.join nodes) {} nodes) (Group.values nodes) :=
    GivesAll.keeps .empty hall
  have htogether := together_of_agrees hall ha
  have hpop : (Group.demand join markers nodes).Populated := by
    refine Demand.Populated.turn markers ⟨?_, ha.populated⟩
    intro hnil
    rw [← hnews.leaves] at hnil
    exact hne (by rw [← hnews.values, hnil]; rfl)
  -- A single clause has a single value, so nothing has marked it.
  have huntagged : ∀ c, news = [.clause c] → (Expr.clause c).isTagged = false := by
    rintro c rfl
    refine Bool.eq_false_iff.mpr fun htag => ?_
    have htwo := Group.two_le_length_values hvalues (ha.tagged _ List.mem_cons_self htag)
    rw [← hnews.values] at htwo
    simp [Expr.leavesAll, Expr.clausesAll, Expr.clauses] at htwo
  have halt : ∀ e : Expr, e.isTagged = false →
      (e.demand join).isAlternative = (Group.demand join markers nodes).isAlternative := fun e he => by
    rw [Group.demand, Demand.isAlternative_turn]
    exact Expr.isAlternative_demand he join _
  rcases hclose with ⟨rfl, rfl⟩ | ⟨e, e', rfl, he, rfl⟩ | ⟨_, rfl, rfl⟩
  · exact absurd hnews.values.symm hne
  · rcases Expr.inherit_eq_ok he with ⟨rfl, rfl⟩ | ⟨c, rfl, rfl⟩
    · have hu : e'.isTagged = false := by
        cases e' with
        | clause c => exact huntagged c rfl
        | group _ _ => rfl
      refine ⟨e', rfl, hu, hpop, halt e' hu, ?_⟩
      rw [Expr.demandAll, Expr.demandAll, Demand.together_singleton] at htogether
      rw [Group.demand, Demand.turn_nil, Demand.holds_array, ← htogether]
      exact Expr.holds_demand_congr _ _ e'
    · have hu : (Expr.clause (c.turned markers)).isTagged = false := by
        have := huntagged c rfl
        rwa [Expr.isTagged, Clause.contains_and_turned]
      refine ⟨_, rfl, hu, hpop, halt _ hu, ?_⟩
      rw [Expr.holds_demand_clause, Demand.holds_of_leaves_singleton _ hpop]
      rw [← Demand.leavesAll_singleton, ← hkeeps.leaves]
      rfl
  · refine ⟨_, rfl, rfl, hpop, halt _ rfl, ?_⟩
    rw [Group.demand, Demand.turn_nil, Demand.holds_array, Expr.demand, Demand.holds_array]
    exact htogether

/-- A value completes a clause, which is marked if something stands beside it. -/
theorem agrees_clause {d : Draft} {key : String} (join : Combinator) (conjoined : Bool) (hd : d.Simple)
    (h : d.key = some key) (value : Json) :
    Agrees style V conjoined join [.token ⟨.value, value⟩]
      [.clause (Clause.tag conjoined ⟨d.markers, ⟨key, d.operator, value⟩⟩)]
      ((Node.token ⟨.value, value⟩).demands join d) := by
  let c : Clause := ⟨d.markers, ⟨key, d.operator, value⟩⟩
  have hdemands : (Node.token ⟨.value, value⟩).demands join d = [.leaf c.leaf] := by
    simp [Node.demands, Draft.leaf?, h, Clause.leaf, c]
  rw [hdemands]
  refine ⟨?_, ⟨trivial, trivial⟩, fun hc => ?_⟩
  · cases conjoined with
    | true => simp
    | false => simpa [Clause.tag, Expr.isTagged] using hd.untagged
  · have hconj : conjoined = true := hc.resolve_right (by simp [isValue])
    have hmember : (Expr.clause (c.tag conjoined)).demand join = .leaf c.leaf := by
      rw [Expr.demand, Clause.leaf_tag, if_pos (by simp [Clause.tag, Clause.mark, hconj])]
    exact .cons (by rw [hmember]; exact ⟨rfl, Iff.rfl⟩) .nil

mutual

theorem Gives.agrees : ∀ {node : Node} {conjoined : Bool} {join : Combinator} {d : Draft} {new : List Expr},
    node.HasValues → d.Simple → Gives conjoined d node new →
      Agrees style V conjoined join [node] new (node.demands join d)
  | .token _, conjoined, join, _, _, _, hd, .clause value h _ => agrees_clause join conjoined hd h value
  | .token _, _, _, _, _, _, _, .token _ h _ => by
    rcases h with rfl | rfl | rfl <;> exact ⟨by simp, trivial, fun _ => .nil⟩
  | .group nodes, _, join, d, _, hv, _, .array h => by
    have hne : Group.values nodes ≠ [] := hv nodes List.mem_cons_self
    have hvalues : Group.HasValues nodes := fun a ha => hv a (List.mem_cons_of_mem _ ha)
    obtain ⟨e, rfl, hstands⟩ :=
      stands_of_agrees join (fun _ hnews => GivesAll.agrees hvalues .empty hnews) hne hvalues h
    refine ⟨?_, ⟨hstands.populated, trivial⟩, fun _ => .cons hstands.same .nil⟩
    simp [hstands.untagged]

theorem GivesAll.agrees : ∀ {nodes : List Node} {conjoined : Bool} {join : Combinator} {d : Draft} {news : List Expr},
    Group.HasValues nodes → d.Simple → GivesAll conjoined d nodes news →
      Agrees style V conjoined join nodes news (Group.demands join d nodes)
  | [], _, _, _, _, _, _, .nil _ => ⟨by simp, trivial, fun _ => .nil⟩
  | node :: rest, _, join, _, _, hv, hd, .cons h hs => by
    obtain ⟨hnode, hrest⟩ := Group.hasValues_cons.mp hv
    rw [Group.demands]
    exact (Gives.agrees hnode hd h).append (GivesAll.agrees hrest (hd.after node) hs)

end

/-- **A reduced group keeps its meaning**, if every array in it has a value. -/
theorem stands_of_reduce (style : LikeStyle) (V : String → Json → Prop) {nodes : List Node} {markers : List Marker}
    {member : Option Expr} (join : Combinator) (hv : (Node.group nodes).HasValues)
    (h : reduce markers nodes = .ok member) : ∃ e, member = some e ∧ Stands style V join markers nodes e :=
  have hvalues : Group.HasValues nodes := fun a ha => hv a (List.mem_cons_of_mem _ ha)
  stands_of_agrees join (fun _ hnews => GivesAll.agrees hvalues .empty hnews) (hv nodes List.mem_cons_self) hvalues h

end Grouping

end DocQuery
