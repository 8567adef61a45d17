import DocQuery.Proofs.Attributes
import DocQuery.Proofs.Filter.Members
import DocQuery.Proofs.Grouping.Meaning

/-!
# Compilation preserves boolean meaning

`Filter.Says style V f ds`: read against the valuation `V`, the filter `f` asks for the demands `ds`. Each addition to
a filter adds one demand to what it says (`Says.conjoin`, `Says.push`), hence so do whole expressions
(`Says.addMembers`, `Says.addExpr`) and all parts of a tree (`Says.takesAll`).

`filter_holds_iff`: the filter of a compiled tree holds if and only if the conditions of the tree do.
-/

namespace DocQuery

namespace Filter

variable {style : LikeStyle} {V : String → Json → Prop} {f f' : Filter} {ds : List Demand} {d : Demand}

/-- What is required in the filter are the leaves and the arrays joined by `AND`, and its alternatives are the arrays
joined by `OR`. -/
structure Says (style : LikeStyle) (V : String → Json → Prop) (f : Filter) (ds : List Demand) : Prop where
  regular : f.Regular
  required : f.Required V ↔ ∀ d ∈ ds, d.isAlternative = false → d.Holds style V
  offered : f.alternatives ≠ [] ↔ ∃ d ∈ ds, d.isAlternative = true
  chosen : (∃ x ∈ f.alternatives, x.Holds V) ↔ ∃ d ∈ ds, d.isAlternative = true ∧ d.Holds style V

namespace Says

theorem empty : Says style V [] [] where
  regular := .empty
  required := by simp [Required]
  offered := by simp [alternatives, Fields.find?]
  chosen := by simp [alternatives, Fields.find?]

theorem holds_iff (h : f.Says style V ds) : f.Holds V ↔ Demand.Together style V ds := by
  rw [Filter.holds_iff h.regular, h.required, h.offered, h.chosen, Demand.Together]

/-- One more demand that is required. -/
theorem require (h : f.Says style V ds) (hr : f'.Regular) (hrequired : f'.Required V ↔ f.Required V ∧ d.Holds style V)
    (halternatives : f'.alternatives = f.alternatives) (hd : d.isAlternative = false) :
    f'.Says style V (ds ++ [d]) where
  regular := hr
  required := by simp [hrequired, h.required, or_imp, forall_and, hd]
  offered := by simp [halternatives, h.offered, or_and_right, exists_or, hd]
  chosen := by simp [halternatives, h.chosen, or_and_right, exists_or, hd]

/-- One more alternative. -/
theorem offer {entry : Json} (h : f.Says style V ds) (hr : f'.Regular) (hrequired : f'.Required V ↔ f.Required V)
    (halternatives : f'.alternatives = f.alternatives ++ [entry]) (hentry : entry.Holds V ↔ d.Holds style V)
    (hd : d.isAlternative = true) : f'.Says style V (ds ++ [d]) where
  regular := hr
  required := by simp [hrequired, h.required, or_imp, forall_and, hd]
  offered := by simp [halternatives, or_and_right, exists_or, hd]
  chosen := by
    have hchosen := h.chosen
    simp only [halternatives, List.mem_append, List.mem_singleton, or_and_right, exists_or, exists_eq_left, hentry, hd,
      true_and]
    rw [hchosen]

/-- A condition among the entries. -/
theorem conjoin {l : Leaf} {fragment : Json} (h : f.Says style V ds) (hl : l.Proper)
    (hf : l.fragment style = .ok fragment) (hd : d.isAlternative = false) (hholds : d.Holds style V ↔ l.Holds style V) :
    (f.conjoin l.condition.key fragment).Says style V (ds ++ [d]) := by
  refine h.require (h.regular.conjoin hl.key fragment) ?_ (alternatives_conjoin hl.key fragment f) hd
  rw [required_conjoin h.regular hl.key (hl.hasUniqueKeys_fragment hf), hholds, Leaf.holds_iff hf]

/-- An element of a connective. -/
theorem push {join : Combinator} {entry : Json} {parts : List Demand} (h : f.Says style V ds)
    (hd : d.isAlternative = (Demand.array join parts).isAlternative) (hentry : entry.Holds V ↔ d.Holds style V) :
    (f.push join entry).Says style V (ds ++ [d]) := by
  cases join with
  | and =>
    refine h.require (h.regular.push .and entry) ?_ (alternatives_push_and f entry) hd
    rw [required_push_and h.regular, hentry]
  | or =>
    have hrequired : (f.push .or entry).Required V ↔ f.Required V := required_push_or h.regular entry
    exact h.offer (h.regular.push .or entry) hrequired (alternatives_push_or f entry) hentry hd

theorem graft {join : Combinator} {nested : Filter} {parts : List Demand} (h : f.Says style V ds)
    (hn : nested.Says style V parts) (hne : nested ≠ []) :
    (f.graft join nested).Says style V (ds ++ [.array join parts]) := by
  rw [graft_of_ne_nil f join hne]
  refine h.push rfl ?_
  rw [Demand.holds_array, ← hn.holds_iff, Json.Holds]

/-! ## Expressions -/

mutual

theorem addMember : ∀ {e : Expr} {join : Combinator} {f f' : Filter} {ds : List Demand}, e.Populated →
    (∀ l ∈ e.leaves, l.Proper) → f.Says style V ds → Filter.addMember style join f e = .ok f' →
      f'.Says style V (ds ++ [e.demand join])
  | .clause c, join, f, _, ds, _, hproper, hs, h => by
    obtain ⟨fragment, hf, rfl⟩ := addMember_clause h
    have hl : c.leaf.Proper := hproper c.leaf (by simp [Expr.leaves, Expr.clauses])
    have hholds : ((Expr.clause c).demand join).Holds style V ↔ c.leaf.Holds style V := Expr.holds_demand_clause join c
    split
    · rename_i hand
      refine hs.conjoin hl hf ?_ hholds
      rw [Expr.demand]
      split
      · rfl
      · rename_i hplain
        rw [hand.resolve_left hplain]
        rfl
    · rename_i hor
      obtain rfl : join = .or := by cases join <;> simp_all
      have hplain : (Expr.clause c).isTagged = false := by simp_all [Expr.isTagged]
      refine hs.push (Expr.isAlternative_demand hplain .or []) ?_
      rw [holds_single hl.key, hholds, Leaf.holds_iff hf]
  | .group inner members, join, _, _, _, hp, hproper, hs, h => by
    obtain ⟨nested, hn, rfl⟩ := addMember_group h
    have hnested := addMembers hp.2 hproper .empty hn
    rw [Expr.demand]
    exact hs.graft hnested (addMembers_ne_nil hp.2 (.inr hp.1) hn)

theorem addMembers : ∀ {members : List Expr} {join : Combinator} {f f' : Filter} {ds : List Demand},
    Expr.AllPopulated members → (∀ l ∈ Expr.leavesAll members, l.Proper) → f.Says style V ds →
      Filter.addMembers style join f members = .ok f' → f'.Says style V (ds ++ Expr.demandAll join members)
  | [], _, _, _, _, _, _, hs, h => by
    cases h
    simpa [Expr.demandAll] using hs
  | e :: rest, join, _, _, ds, hp, hproper, hs, h => by
    obtain ⟨f₁, h₁, h₂⟩ := addMembers_cons h
    rw [Expr.leavesAll_cons, List.forall_mem_append] at hproper
    have hs' := addMembers hp.2 hproper.2 (addMember hp.1 hproper.1 hs h₁) h₂
    rwa [List.append_assoc] at hs'

end

theorem addExpr {e : Expr} {join : Combinator} (hp : e.Populated) (hproper : ∀ l ∈ e.leaves, l.Proper)
    (hplain : e.isTagged = false) (hs : f.Says style V ds) (h : f.addExpr style join e = .ok f') :
    f'.Says style V (ds ++ [e.demand join]) := by
  cases e with
  | clause c =>
    obtain ⟨fragment, hf, rfl⟩ := addExpr_clause h
    have hl : c.leaf.Proper := hproper c.leaf (by simp [Expr.leaves, Expr.clauses])
    refine hs.push (Expr.isAlternative_demand hplain join []) ?_
    rw [holds_single hl.key, Expr.holds_demand_clause, Leaf.holds_iff hf]
  | group inner members =>
    obtain ⟨nested, hn, rfl⟩ := addExpr_group h
    rw [Expr.demand]
    exact hs.graft (addMembers hp.2 hproper .empty hn) (addMembers_ne_nil hp.2 (.inr hp.1) hn)

/-- Demands that cannot be told apart can be exchanged. -/
theorem congr {ds' : List Demand} (hs : f.Says style V ds) (h : List.Forall₂ (Demand.Same style V) ds ds') :
    f.Says style V ds' := by
  obtain ⟨hall, hany, hsome⟩ := Demand.forall₂_same h
  exact ⟨hs.regular, hs.required.trans hall, hs.offered.trans hany, hs.chosen.trans hsome⟩

end Says

end Filter

/-! ## Trees -/

/-- Every array in the part has a value. -/
def Part.HasValues : Part → Prop
  | .leaf _ => True
  | .array _ _ nodes => (Node.group nodes).HasValues

namespace Filter.Says

variable {style : LikeStyle} {V : String → Json → Prop} {f f' : Filter} {ds : List Demand}

/-- What a part adds to the filter is its demand. -/
theorem takes {p : Part} (hproper : ∀ l ∈ p.leaves, l.Proper) (hv : p.HasValues) (hs : f.Says style V ds)
    (h : Filter.Takes style f p f') : f'.Says style V (ds ++ [p.demand]) := by
  cases h with
  | leaf hf => exact hs.conjoin (hproper _ (by simp [Part.leaves, Part.demand, Demand.leaves])) hf rfl Iff.rfl
  | @array _ join markers nodes e hr ha =>
    obtain ⟨e', he, hstands⟩ := Grouping.stands_of_reduce style V join hv hr
    cases he
    have hkeeps := Grouping.keeps_of_reduce join hr
    have hleaves : e.leaves = (Group.demand join markers nodes).leaves := by
      rw [← Expr.leavesAll_singleton, ← Demand.leavesAll_singleton]
      exact hkeeps.leaves
    have hfilter := hs.addExpr hkeeps.populated.1 (hleaves ▸ hproper) hstands.untagged ha
    refine hfilter.congr (List.rel_append ?_ (.cons hstands.same .nil))
    exact List.forall₂_same.mpr fun d _ => .refl d
  | nothing hr =>
    obtain ⟨e, he, _⟩ := Grouping.stands_of_reduce style V .or hv hr
    cases he

theorem takesAll {ps : List Part} (hproper : ∀ p ∈ ps, ∀ l ∈ p.leaves, l.Proper) (hv : ∀ p ∈ ps, p.HasValues)
    (hs : f.Says style V ds) (h : Filter.TakesAll style f ps f') : f'.Says style V (ds ++ ps.map Part.demand) := by
  induction h generalizing ds with
  | nil f => simpa using hs
  | @cons f f₁ f₂ p ps hp _ ih =>
    rw [List.forall_mem_cons] at hproper hv
    have hs' := ih hproper.2 hv.2 (hs.takes hproper.1 hv.1 hp)
    rwa [List.append_assoc] at hs'

end Filter.Says

theorem Reader.hasValues_parts {nodes : List Node} {r : Reader} (h : Group.HasValues nodes) :
    ∀ p ∈ r.parts nodes, p.HasValues := by
  induction nodes generalizing r with
  | nil => simp [Reader.parts]
  | cons node rest ih =>
    obtain ⟨hnode, hrest⟩ := Group.hasValues_cons.mp h
    rw [Reader.parts, List.forall_mem_append]
    refine ⟨fun p hp => ?_, ih hrest⟩
    rw [Option.mem_toList] at hp
    cases node with
    | token t =>
      obtain ⟨l, _, rfl⟩ := Option.map_eq_some_iff.mp hp
      trivial
    | group nodes =>
      cases hp
      exact hnode

/-- Every array in a filter clause, at any depth, has a value in it, directly or deeper. -/
def Tree.ArraysHaveValues (tree : Tree) : Prop :=
  ∀ s ∈ tree.segments, s.identifier = .where_ → ∀ a ∈ Group.arrays s.nodes, ∃ t ∈ Group.tokens a, t.kind = .value

theorem Tree.hasValues_parts {tree : Tree} (h : tree.ArraysHaveValues) (count : CountStyle) :
    ∀ p ∈ tree.parts count, p.HasValues := by
  intro p hp
  obtain ⟨s, hs, hp⟩ := List.mem_flatMap.mp hp
  by_cases hi : s.identifier = .where_
  · rw [Segment.parts_where hi] at hp
    refine Reader.hasValues_parts (fun a ha => ?_) p hp
    obtain ⟨t, ht, hk⟩ := h s hs hi a ha
    have hmem : t.value ∈ Group.values a := List.mem_map_of_mem (List.mem_filter.mpr ⟨ht, by simp [hk]⟩)
    exact List.ne_nil_of_mem hmem
  · -- Any other part is a leaf.
    rw [Segment.parts_of_ne_where hi] at hp
    split at hp
    · cases count with
      | pipeline => cases hp
      | existence =>
        obtain ⟨attr, _, rfl⟩ := List.mem_map.mp hp
        trivial
    · cases hp

/-- The demands of some parts, sorted by the kind of part. -/
theorem Part.together_iff {style : LikeStyle} {V : String → Json → Prop} (ps : List Part) :
    Demand.Together style V (ps.map Part.demand) ↔
      (∀ l, Part.leaf l ∈ ps → l.Holds style V) ∧
      ((∃ markers nodes, Part.array .or markers nodes ∈ ps) →
        ∃ markers nodes, Part.array .or markers nodes ∈ ps ∧ (Group.demand .or markers nodes).Holds style V) ∧
      (∀ markers nodes, Part.array .and markers nodes ∈ ps → (Group.demand .and markers nodes).Holds style V) := by
  have halt : ∀ (join : Combinator) (markers : List Marker) (nodes : List Node),
      (Part.array join markers nodes).demand.isAlternative = (Demand.array join []).isAlternative := by
    intro join markers nodes
    rw [Part.demand, Group.demand, Demand.isAlternative_turn]
    cases join <;> rfl
  have hjoin : ∀ {join : Combinator} {markers : List Marker} {nodes : List Node},
      (Part.array join markers nodes).demand.isAlternative = true → join = .or := by
    intro join markers nodes h
    rw [halt] at h
    cases join with
    | and => cases h
    | or => rfl
  constructor
  · rintro ⟨hrequired, hchosen⟩
    refine ⟨fun l hl => hrequired _ (List.mem_map_of_mem hl) rfl, ?_,
      fun markers nodes hp => hrequired _ (List.mem_map_of_mem hp) (halt .and markers nodes)⟩
    rintro ⟨markers, nodes, hp⟩
    obtain ⟨d, hd, hor, hholds⟩ := hchosen ⟨_, List.mem_map_of_mem hp, halt .or markers nodes⟩
    obtain ⟨p, hp, rfl⟩ := List.mem_map.mp hd
    cases p with
    | leaf l => cases hor
    | array join markers nodes =>
      obtain rfl := hjoin hor
      exact ⟨markers, nodes, hp, hholds⟩
  · rintro ⟨hleaves, hchosen, hrequired⟩
    constructor
    · intro d hd hand
      obtain ⟨p, hp, rfl⟩ := List.mem_map.mp hd
      cases p with
      | leaf l => exact hleaves l hp
      | array join markers nodes =>
        cases join with
        | and => exact hrequired markers nodes hp
        | or =>
          rw [halt] at hand
          cases hand
    · rintro ⟨d, hd, hor⟩
      obtain ⟨p, hp, rfl⟩ := List.mem_map.mp hd
      cases p with
      | leaf l => cases hor
      | array join markers nodes =>
        obtain rfl := hjoin hor
        obtain ⟨markers, nodes, hp, hholds⟩ := hchosen ⟨markers, nodes, hp⟩
        exact ⟨_, List.mem_map_of_mem hp, halt .or markers nodes, hholds⟩

/-- **Compilation preserves boolean meaning.** The filter holds if and only if every leaf of a filter clause holds,
one of the arrays joined by `OR` does, if there are any, and so does every array joined by `AND`. -/
theorem filter_holds_iff {dialect : Dialect} {tree : Tree} {q : Query} (h : compile dialect tree = .ok q)
    (hunique : tree.HasUniqueKeys) (hconnectives : tree.AvoidsConnectives) (hvalues : tree.ArraysHaveValues)
    (V : String → Json → Prop) :
    q.filter.Holds V ↔
      (∀ l, Part.leaf l ∈ tree.parts dialect.count → l.Holds dialect.like V) ∧
      ((∃ markers nodes, Part.array .or markers nodes ∈ tree.parts dialect.count) →
        ∃ markers nodes, Part.array .or markers nodes ∈ tree.parts dialect.count ∧
          (Group.demand .or markers nodes).Holds dialect.like V) ∧
      (∀ markers nodes, Part.array .and markers nodes ∈ tree.parts dialect.count →
        (Group.demand .and markers nodes).Holds dialect.like V) := by
  have hproper := Tree.proper_parts hconnectives hunique dialect.count
  have hfilter : q.filter.Says dialect.like V ([] ++ (tree.parts dialect.count).map Part.demand) :=
    Filter.Says.empty.takesAll hproper (Tree.hasValues_parts hvalues dialect.count) (takesAll_of_compile h)
  rw [hfilter.holds_iff, List.nil_append, Part.together_iff]

/-- Two conditions on one attribute, a negated array, and an array with nested ones. -/
def Group.nested : List Node := [
  .token ⟨.key, .str "a"⟩, .token ⟨.value, .int 1⟩, .token ⟨.key, .str "a"⟩, .token ⟨.value, .int 2⟩,
  .token ⟨.condition, .str "NOT"⟩, .group [.token ⟨.key, .str "b"⟩, .token ⟨.value, .int 3⟩],
  .group [.token ⟨.key, .str "c"⟩, .token ⟨.value, .int 4⟩, .token ⟨.condition, .str "AND"⟩,
    .group [.token ⟨.key, .str "d"⟩, .token ⟨.value, .int 5⟩],
    .group [.token ⟨.key, .str "d"⟩, .token ⟨.value, .int 6⟩]]]

def Tree.nested : Tree := ⟨[.token ⟨.identifier, .str "WHERE"⟩ :: Group.nested]⟩

def Demand.nested : List Demand := [
  .leaf ⟨⟨"a", none, .int 1⟩, .plain⟩, .leaf ⟨⟨"a", none, .int 2⟩, .plain⟩,
  .array .or [.leaf ⟨⟨"b", none, .int 3⟩, .not⟩],
  .array .or [.leaf ⟨⟨"c", none, .int 4⟩, .plain⟩, .array .and [.leaf ⟨⟨"d", none, .int 5⟩, .plain⟩],
    .array .and [.leaf ⟨⟨"d", none, .int 6⟩, .plain⟩]]]

def Filter.nested : Filter := [
  ("a", .int 1), ("$and", .arr [.single "a" (.int 2)]),
  ("$or", .arr [.single "b" (.single "$ne" (.int 3)),
    .obj [("c", .int 4), ("d", .int 5), ("$and", .arr [.single "d" (.int 6)])]])]

theorem filter_holds_iff_nested : ∃ q, compile {} Tree.nested = .ok q ∧
    (Tree.nested.parts .pipeline).map Part.demand = Demand.nested ∧ q.filter = Filter.nested ∧
    ∀ V : String → Json → Prop, q.filter.Holds V ↔
      (V "a" (.int 1) ∧ V "a" (.int 2)) ∧
        (V "b" (.single "$ne" (.int 3)) ∨ V "c" (.int 4) ∧ V "d" (.int 5) ∧ V "d" (.int 6)) := by
  have hwhere : Identifier.ofName "WHERE" = .where_ := by decide +kernel
  have hnot : Marker.ofCondition? "NOT" = some .not := by decide +kernel
  have hand : Marker.ofCondition? "AND" = some .and := by decide +kernel
  have hsegments : Tree.nested.segments = [⟨.where_, Group.nested⟩] := by
    simp [Tree.segments, Tree.nested, Group.nested, Group.cut, Node.identifier?, hwhere]
  have hunique : Tree.nested.HasUniqueKeys := by
    unfold Tree.HasUniqueKeys
    decide
  have hconnectives : Tree.nested.AvoidsConnectives := by
    constructor
    · rw [hsegments]
      decide
    · rw [hsegments]
      simp
  have hvalues : Tree.nested.ArraysHaveValues := by
    unfold Tree.ArraysHaveValues
    rw [hsegments]
    decide
  have hfilter : (compile {} Tree.nested).toOption.map Query.filter = some Filter.nested := by decide +kernel
  have hok : (compile {} Tree.nested).isOk = true := by decide +kernel
  obtain ⟨q, hq⟩ := exists_eq_ok hok
  rw [hq] at hfilter
  have hdemands : (Tree.nested.parts .pipeline).map Part.demand = Demand.nested := by
    have hplain : Modifiers.resolved {} = .plain := rfl
    have hturn : Modifier.turn [.not] .plain = .not := rfl
    have hjoin : Group.join [.token ⟨.key, .str "c"⟩, .token ⟨.value, .int 4⟩, .token ⟨.condition, .str "AND"⟩,
        .group [.token ⟨.key, .str "d"⟩, .token ⟨.value, .int 5⟩],
        .group [.token ⟨.key, .str "d"⟩, .token ⟨.value, .int 6⟩]] = .and := by
      decide +kernel
    rw [Tree.parts, hsegments]
    simp [Segment.parts, Group.nested, Reader.parts, Reader.part?, Reader.after, Reader.word, Draft.leaf?, Draft.setKey,
      Draft.isPending, Draft.after, Draft.pendingMarkers, Modifiers.push, hplain, hnot, hand, Part.demand, Group.demand,
      Group.demands, Node.demands, hjoin, Demand.turn, Demand.turnAll, Leaf.turn, hturn, Modifier.turn_nil,
      Demand.nested]
  refine ⟨q, hq, hdemands, Option.some.inj hfilter, fun V => ?_⟩
  have hleaf : ∀ key n, Leaf.Holds .regex V ⟨⟨key, none, .int n⟩, .plain⟩ ↔ V key (.int n) := by
    intro key n
    rw [Leaf.holds_iff rfl]
    simp [LeafHolds, leafAtoms, Json.int]
  have hnegated : Leaf.Holds .regex V ⟨⟨"b", none, .int 3⟩, .not⟩ ↔ V "b" (.single "$ne" (.int 3)) := by
    rw [Leaf.holds_iff rfl]
    simp [LeafHolds, leafAtoms, Json.single, Object.isOperators, Fields.keys, isOperatorName]
  rw [filter_holds_iff hq hunique hconnectives hvalues, ← Part.together_iff, hdemands]
  simp [Demand.Together, Demand.nested, Demand.isAlternative, Demand.Holds, Demand.AllRequired, Demand.SomeAlternative,
    hleaf, hnegated]

end DocQuery
