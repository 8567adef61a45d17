import DocQuery.Proofs.Simulation
import DocQuery.Query.Document

/-!
# What a dialect can change

A dialect fixes spellings, and decides nothing else. Whether a group is refused, and with which error, depends on that
group alone: on no query before it and on no dialect (`simulation_any`). The outline of a query, which is all of it but
the dialect and the filter, does not depend on the dialect either (`simulation_outline`). The shape of the output is not
seen until the query is written (`compile_reshape`).

`compile_noninterference` puts the three together.
-/

namespace DocQuery

/-! ## Errors of conditions -/

/-- Two calls that fail with the same error, or both succeed. -/
abbrev FailAlike {ε α β : Type} (x : Except ε α) (y : Except ε β) : Prop := Agree (fun _ _ => True) x y

section Errors

variable (style style' : LikeStyle)

theorem Condition.failAlike_comparison (c : Condition) : FailAlike (c.comparison style) (c.comparison style') := by
  unfold comparison
  cases c.operator with
  | none => exact .ok trivial
  | some op =>
    simp only [Operator.operand, Option.any_some]
    split
    · cases c.value with
      | str raw => exact .ok trivial
      | _ => exact .error _
    · exact .ok trivial

/-- Whether a condition has a fragment does not depend on how a pattern is written. -/
theorem Condition.failAlike_fragment (modifier : Modifier) (c : Condition) :
    FailAlike (c.fragment style modifier) (c.fragment style' modifier) := by
  have hcomparison := c.failAlike_comparison style style'
  unfold fragment
  cases modifier with
  | plain => exact hcomparison
  | not =>
    cases c.operator with
    | none => exact .ok trivial
    | some op => exact hcomparison.map fun _ _ h => h
  | inList => exact .ok trivial
  | notInList => exact .ok trivial

namespace Filter

theorem failAlike_apply (f f' : Filter) (family family' : Family) (modifier : Modifier) (c : Condition) :
    FailAlike (f.apply style family modifier c) (f'.apply style' family' modifier c) :=
  (c.failAlike_fragment style style' modifier).map fun _ _ h => h

mutual

/-- Whether a member can be added does not depend on the filter, nor on where the member goes. -/
theorem failAlike_addMember (combinator combinator' : Combinator) : ∀ (e : Expr) (f f' : Filter),
    FailAlike (addMember style combinator f e) (addMember style' combinator' f' e)
  | .clause c, f, f' => by
    rw [addMember, addMember]
    exact failAlike_apply style style' f f' _ _ _ _
  | .group inner members, f, f' => by
    rw [addMember, addMember]
    exact (failAlike_addMembers inner inner members [] []).bind fun _ _ _ => .ok trivial

theorem failAlike_addMembers (combinator combinator' : Combinator) : ∀ (members : List Expr) (f f' : Filter),
    FailAlike (addMembers style combinator f members) (addMembers style' combinator' f' members)
  | [], _, _ => .ok trivial
  | e :: rest, f, f' => by
    rw [addMembers, addMembers]
    exact (failAlike_addMember combinator combinator' e f f').bind fun f₁ f₁' _ =>
      failAlike_addMembers combinator combinator' rest f₁ f₁'

end

theorem failAlike_addExpr (outer outer' : Combinator) (e : Expr) (f f' : Filter) :
    FailAlike (f.addExpr style outer e) (f'.addExpr style' outer' e) := by
  cases e with
  | clause c => exact failAlike_apply style style' f f' _ _ _ _
  | group inner members =>
    exact (failAlike_addMembers style style' inner inner members [] []).bind fun _ _ _ => .ok trivial

end Filter

end Errors

/-! ## Simulations -/

namespace Query

section Stages

variable {R : Query → Query → Prop} {q q' : Query}
  (hstage : ∀ attributes, R { q.setKind .aggregate with stages := q.stages ++ [attributes] }
    { q'.setKind .aggregate with stages := q'.stages ++ [attributes] })
include hstage

/-- Only a stage without attributes is refused. -/
theorem agree_groupBy (attributes : List String) : Agree R (q.groupBy attributes) (q'.groupBy attributes) := by
  cases attributes with
  | nil => exact .error _
  | cons attr rest => exact .ok (hstage (attr :: rest))

/-- A single attribute is a key, and several are a stage. -/
theorem agree_distinct
    (hkey : ∀ attr, R { q.setKind .distinct with key := some attr } { q'.setKind .distinct with key := some attr })
    (attributes : List String) : Agree R (q.distinct attributes) (q'.distinct attributes) := by
  rcases attributes with _ | ⟨attr, _ | ⟨other, rest⟩⟩
  · exact .error _
  · exact .ok (hkey attr)
  · exact .ok (hstage (attr :: other :: rest))

end Stages

/-- **Errors do not depend on the query**: any two queries will do. -/
theorem simulation_any : Simulation fun _ _ => True where
  delete _ := trivial
  select _ _ := trivial
  setCollection _ _ := trivial
  setLimit _ _ := trivial
  setSkip _ _ := trivial
  insert _ _ := trivial
  update _ _ := trivial
  countRows _ := trivial
  countBy _ _ := trivial
  sort _ _ _ := .bind_same _ fun _ => .ok trivial
  distinct attributes _ := agree_distinct (fun _ => trivial) (fun _ => trivial) attributes
  groupBy attributes _ := agree_groupBy (fun _ => trivial) attributes
  apply modifier c _ := (Filter.failAlike_apply _ _ _ _ _ _ modifier c).bind fun _ _ _ => .ok trivial
  applyExpr outer e _ := (Filter.failAlike_addExpr _ _ outer outer e _ _).bind fun _ _ _ => .ok trivial

/-- Two queries that say the same, but for their filters. -/
inductive SameOutline : Query → Query → Prop
  | mk (q : Query) (dialect : Dialect) (filter : Filter) : SameOutline q { q with dialect, filter }

/-- **The outline does not depend on the dialect**, nor on the filter. -/
theorem simulation_outline : Simulation SameOutline where
  delete h := by cases h; exact .mk _ _ _
  select fields h := by cases h; exact .mk _ _ _
  setCollection name h := by cases h; exact .mk _ _ _
  setLimit n h := by cases h; exact .mk _ _ _
  setSkip n h := by cases h; exact .mk _ _ _
  insert values h := by cases h; exact .mk _ _ _
  update values h := by cases h; exact .mk _ _ _
  countRows h := by cases h; exact .mk _ _ _
  countBy {q _} attr h := by
    obtain ⟨dialect, filter⟩ := h
    unfold countBy
    cases hq : q.dialect.count <;> cases hd : dialect.count <;> simp only [setKind, hq, hd] <;> exact .mk _ _ _
  sort attr direction h := by
    cases h
    exact .bind_same _ fun _ => .ok (.mk _ _ _)
  distinct attributes h := by
    cases h
    exact agree_distinct (fun _ => .mk _ _ _) (fun _ => .mk _ _ _) attributes
  groupBy attributes h := by
    cases h
    exact agree_groupBy (fun _ => .mk _ _ _) attributes
  apply modifier c h := by
    cases h
    exact (Filter.failAlike_apply _ _ _ _ _ _ modifier c).bind fun _ _ _ => .ok (.mk _ _ _)
  applyExpr outer e h := by
    cases h
    exact (Filter.failAlike_addExpr _ _ outer outer e _ _).bind fun _ _ _ => .ok (.mk _ _ _)

/-- The query in another shape of the output. -/
def reshape (shape : OutputShape) (q : Query) : Query := { q with dialect := { q.dialect with shape } }

/-- **The shape is not seen** until the query is written. -/
theorem simulation_reshape (shape : OutputShape) : Simulation fun q q' => q' = q.reshape shape where
  delete h := by subst h; rfl
  select fields h := by subst h; rfl
  setCollection name h := by subst h; rfl
  setLimit n h := by subst h; rfl
  setSkip n h := by subst h; rfl
  insert values h := by subst h; rfl
  update values h := by subst h; rfl
  countRows h := by subst h; rfl
  countBy {q _} attr h := by
    subst h
    unfold countBy
    cases hq : q.dialect.count <;> simp only [setKind, reshape, hq]
  sort attr direction h := by
    subst h
    exact .bind_same _ fun _ => .ok rfl
  distinct attributes h := by
    subst h
    exact agree_distinct (R := fun q q' => q' = q.reshape shape) (fun _ => rfl) (fun _ => rfl) attributes
  groupBy attributes h := by
    subst h
    exact agree_groupBy (R := fun q q' => q' = q.reshape shape) (fun _ => rfl) attributes
  apply modifier c h := by
    subst h
    exact .bind_same _ fun _ => .ok rfl
  applyExpr outer e h := by
    subst h
    exact .bind_same _ fun _ => .ok rfl

end Query

/-! ## Trees -/

theorem compile_reshape (dialect : Dialect) (shape : OutputShape) (tree : Tree) :
    compile { dialect with shape } tree = (compile dialect tree).map (Query.reshape shape) :=
  ((Query.simulation_reshape shape).walkAll (q := .empty dialect) rfl tree.groups).eq_map

theorem compile_singleton (dialect : Dialect) (g : Group) : compile dialect ⟨[g]⟩ = (Query.empty dialect).walk g := by
  simp [compile]

/-- A tree is refused for its first group that is refused alone, whatever comes before it. -/
theorem foldlM_walk_eq_error_iff (dialect : Dialect) {groups : List Group} {q : Query} {e : BuildError} :
    groups.foldlM Query.walk q = .error e ↔
      ∃ before g after, groups = before ++ g :: after ∧ (∀ g' ∈ before, ∃ q', compile dialect ⟨[g']⟩ = .ok q') ∧
        compile dialect ⟨[g]⟩ = .error e := by
  induction groups generalizing q with
  | nil =>
    constructor
    · intro h
      cases h
    · rintro ⟨before, g, after, h, _⟩
      simp at h
  | cons g groups ih =>
    have hg : FailAlike (q.walk g) (compile dialect ⟨[g]⟩) := by
      rw [compile_singleton]
      exact Query.simulation_any.walk trivial g
    rw [List.foldlM_cons]
    cases hw : q.walk g with
    | error e' =>
      have halone := (hg.error_iff e').mp hw
      constructor
      · intro h
        exact ⟨[], g, groups, rfl, by simp, halone.trans h⟩
      · rintro ⟨before, g₁, after, hgroups, hbefore, h⟩
        cases before with
        | nil =>
          cases hgroups
          exact halone.symm.trans h
        | cons g₀ before =>
          -- The first group would have to succeed alone.
          cases hgroups
          obtain ⟨q', hq'⟩ := hbefore g List.mem_cons_self
          rw [halone] at hq'
          cases hq'
    | ok q₁ =>
      obtain ⟨q', hq', _⟩ := hg.exists_ok hw
      show groups.foldlM Query.walk q₁ = .error e ↔ _
      rw [ih]
      constructor
      · rintro ⟨before, g₁, after, rfl, hbefore, h⟩
        refine ⟨g :: before, g₁, after, rfl, ?_, h⟩
        rw [List.forall_mem_cons]
        exact ⟨⟨q', hq'⟩, hbefore⟩
      · rintro ⟨before, g₁, after, hgroups, hbefore, h⟩
        cases before with
        | nil =>
          cases hgroups
          rw [hq'] at h
          cases h
        | cons g₀ before =>
          cases hgroups
          exact ⟨before, g₁, after, rfl, fun g' hg' => hbefore g' (List.mem_cons_of_mem _ hg'), h⟩

/-- **Errors are local, and a dialect does not interfere.** A tree is refused under one dialect for the first of its
groups that is refused alone under another, with that error. If it is accepted, the queries under both dialects have the
same outline; and their filters are the same if counting and patterns are, whatever the shape. -/
theorem compile_noninterference (tree : Tree) (d₁ d₂ : Dialect) :
    (∀ e, compile d₁ tree = .error e ↔
      ∃ before g after, tree.groups = before ++ g :: after ∧ (∀ g' ∈ before, ∃ q, compile d₂ ⟨[g']⟩ = .ok q) ∧
        compile d₂ ⟨[g]⟩ = .error e) ∧
    ∀ q₁, compile d₁ tree = .ok q₁ → ∃ q₂, compile d₂ tree = .ok q₂ ∧
      (q₁.kind = q₂.kind ∧ q₁.collection = q₂.collection ∧ q₁.projection = q₂.projection ∧ q₁.order = q₂.order ∧
        q₁.skip = q₂.skip ∧ q₁.limit = q₂.limit ∧ q₁.values = q₂.values ∧ q₁.key = q₂.key ∧
        q₁.grouping = q₂.grouping ∧ q₁.pipeline = q₂.pipeline) ∧
      (d₁.count = d₂.count → d₁.like = d₂.like → q₁.filter = q₂.filter) := by
  refine ⟨fun e => foldlM_walk_eq_error_iff d₂, ?_⟩
  intro q₁ h₁
  have houtline := Query.simulation_outline.walkAll (.mk (.empty d₁) d₂ []) tree.groups
  obtain ⟨q₂, h₂, hsame⟩ := houtline.exists_ok h₁
  refine ⟨q₂, h₂, ?_, ?_⟩
  · cases hsame
    exact ⟨rfl, rfl, rfl, rfl, rfl, rfl, rfl, rfl, rfl, rfl⟩
  · intro hcount hlike
    have hshape : d₂ = { d₁ with shape := d₂.shape } := by
      rw [hcount, hlike]
    have hreshaped : compile d₂ tree = .ok (q₁.reshape d₂.shape) := by
      rw [hshape, compile_reshape, h₁]
      rfl
    cases h₂.symm.trans hreshaped
    rfl

/-- A sort clause, which is refused unless it names a direction. -/
def Group.sortedBy (direction : Json) : Group :=
  [.token ⟨.identifier, .str "ORDERBY"⟩, .token ⟨.key, .str "a"⟩, .token ⟨.value, direction⟩]

/-- A count with a pattern among its conditions. -/
def Tree.patterned (direction : Json) : Tree :=
  ⟨[[.token ⟨.identifier, .str "COUNT"⟩, .token ⟨.value, .str "a"⟩],
    [.token ⟨.identifier, .str "WHERE"⟩, .token ⟨.key, .str "a"⟩, .token ⟨.operator, .str "LIKE"⟩,
      .token ⟨.value, .str "x%"⟩],
    Group.sortedBy direction]⟩

theorem compile_noninterference_patterned :
    (∃ q₁ q₂, compile {} (.patterned (.int 1)) = .ok q₁ ∧
      compile ⟨.criteria, .existence, .literal⟩ (.patterned (.int 1)) = .ok q₂ ∧
      q₁.kind = q₂.kind ∧ q₁.order = q₂.order ∧ q₁.grouping = q₂.grouping ∧ q₁.pipeline = q₂.pipeline) ∧
    (∃ q₁ q₂, compile {} (.patterned (.int 1)) = .ok q₁ ∧
      compile { shape := .criteria } (.patterned (.int 1)) = .ok q₂ ∧ q₁.filter = q₂.filter) ∧
    ∃ e, compile ⟨.criteria, .existence, .literal⟩ ⟨[.sortedBy (.str "up")]⟩ = .error e ∧
      compile {} (.patterned (.str "up")) = .error e := by
  have hok : (compile {} (.patterned (.int 1))).isOk = true := by decide +kernel
  obtain ⟨q₁, h₁⟩ := exists_eq_ok hok
  refine ⟨?_, ?_, ?_⟩
  · obtain ⟨q₂, h₂, ⟨hkind, _, _, horder, _, _, _, _, hgrouping, hpipeline⟩, _⟩ :=
      (compile_noninterference (.patterned (.int 1)) {} ⟨.criteria, .existence, .literal⟩).2 q₁ h₁
    exact ⟨q₁, q₂, h₁, h₂, hkind, horder, hgrouping, hpipeline⟩
  · obtain ⟨q₂, h₂, _, hfilter⟩ := (compile_noninterference (.patterned (.int 1)) {} { shape := .criteria }).2 q₁ h₁
    exact ⟨q₁, q₂, h₁, h₂, hfilter rfl rfl⟩
  · let before := (Tree.patterned (.str "up")).groups.take 2
    have hbefore : ∀ g ∈ before, (compile ⟨.criteria, .existence, .literal⟩ ⟨[g]⟩).isOk = true := by decide +kernel
    have hrefused : (compile ⟨.criteria, .existence, .literal⟩ ⟨[.sortedBy (.str "up")]⟩).isOk = false := by
      decide +kernel
    cases h : compile ⟨.criteria, .existence, .literal⟩ ⟨[.sortedBy (.str "up")]⟩ with
    | ok q =>
      rw [h] at hrefused
      cases hrefused
    | error e =>
      refine ⟨e, rfl, ?_⟩
      exact ((compile_noninterference (.patterned (.str "up")) {} ⟨.criteria, .existence, .literal⟩).1 e).mpr
        ⟨before, .sortedBy (.str "up"), [], rfl, fun g hg => exists_eq_ok (hbefore g hg), h⟩

end DocQuery
