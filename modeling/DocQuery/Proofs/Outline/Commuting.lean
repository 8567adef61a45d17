import DocQuery.Proofs.Dialects
import DocQuery.Proofs.Outline.Statements
import DocQuery.Proofs.Places

/-!
# Clauses that commute

Every clause has a *concern*: the fields to project, the collection, the conditions, the limit, the rows to skip, the
order, or the statement itself. Statements of different concerns commute (`say_comm`), though a projection and a
statement both settle what kind of query it is: a projection only does so where nothing else has. The filter is touched
by conditions, and by counting if that means existence, so of two clauses of different concerns one leaves it alone.

`compile_swap`: groups that are single clauses of different concerns can change places.
-/

namespace DocQuery

/-! ## Concerns -/

/-- What a clause is about. -/
inductive Concern where
  | projection
  | collection
  | conditions
  | limit
  | skip
  | order
  | statement
deriving DecidableEq

/-- The concern of a clause. Joins and unknown names have none. -/
def Identifier.concern? : Identifier → Option Concern
  | .select => some .projection
  | .from_ => some .collection
  | .into => some .collection
  | .using_ => some .collection
  | .where_ => some .conditions
  | .limit => some .limit
  | .skip => some .skip
  | .offset => some .skip
  | .orderBy => some .order
  | .insert => some .statement
  | .update => some .statement
  | .delete => some .statement
  | .count => some .statement
  | .distinct => some .statement
  | .groupBy => some .statement
  | .join _ => none
  | .other _ => none

def Statement.concern : Statement → Concern
  | .delete => .statement
  | .insert _ => .statement
  | .update _ => .statement
  | .sort _ _ => .order
  | .select _ => .projection
  | .collection _ => .collection
  | .count _ => .statement
  | .distinct _ => .statement
  | .group _ _ => .statement
  | .limit _ => .limit
  | .skip _ => .skip

theorem Statement.concern_ofValue? {i : Identifier} {value : Json} {st : Statement} (h : ofValue? i value = some st) :
    i.concern? = some st.concern := by
  cases i <;> simp only [ofValue?] at h
  case select | count =>
    cases h
    rfl
  case from_ | into | using_ | limit | skip | offset =>
    obtain ⟨_, _, rfl⟩ := Option.map_eq_some_iff.mp h
    rfl
  case distinct | groupBy =>
    split at h <;> cases h <;> rfl
  all_goals cases h

/-- The statements of a clause share its concern. -/
theorem Segment.concern_of_mem {s : Segment} {st : Statement} (h : st ∈ s.statements) :
    s.identifier.concern? = some st.concern := by
  obtain ⟨identifier, nodes⟩ := s
  have hvalue : ∀ {i : Identifier}, st ∈ nodes.filterMap (Node.statement? i) → i.concern? = some st.concern := by
    intro i hst
    obtain ⟨node, _, hnode⟩ := List.mem_filterMap.mp hst
    unfold Node.statement? at hnode
    split at hnode
    · exact Statement.concern_ofValue? hnode
    · cases hnode
  cases identifier
  case delete | insert | update =>
    cases List.mem_singleton.mp h
    rfl
  case orderBy =>
    obtain ⟨p, _, rfl⟩ := List.mem_map.mp h
    rfl
  all_goals exact hvalue h

/-! ## Outlines -/

namespace Query

variable {q q' : Query}

/-- **Statements of different concerns commute.** -/
theorem say_comm {st st' : Statement} (h : st.concern ≠ st'.concern) (q : Query) :
    (q.say st).say st' = (q.say st').say st := by
  cases st <;> cases st' <;> try exact absurd rfl h
  all_goals rfl

theorem foldl_say_say {st : Statement} {sts : List Statement} (h : ∀ st' ∈ sts, st.concern ≠ st'.concern) (q : Query) :
    sts.foldl say (q.say st) = (sts.foldl say q).say st := by
  induction sts generalizing q with
  | nil => rfl
  | cons st' sts ih =>
    rw [List.forall_mem_cons] at h
    rw [List.foldl_cons, List.foldl_cons, say_comm h.1, ih h.2]

theorem foldl_say_comm {sts sts' : List Statement}
    (h : ∀ st ∈ sts, ∀ st' ∈ sts', st.concern ≠ st'.concern) (q : Query) :
    sts'.foldl say (sts.foldl say q) = sts.foldl say (sts'.foldl say q) := by
  induction sts generalizing q with
  | nil => rfl
  | cons st sts ih =>
    rw [List.forall_mem_cons] at h
    rw [List.foldl_cons, List.foldl_cons, ih h.2, foldl_say_say h.1]

/-- A query is its outline, its dialect and its filter. -/
theorem eq_of_outline (ho : q.outline = q'.outline) (hd : q.dialect = q'.dialect) (hf : q.filter = q'.filter) :
    q = q' := by
  calc
    q = { q.outline with dialect := q.dialect, filter := q.filter } := rfl
    _ = { q'.outline with dialect := q'.dialect, filter := q'.filter } := by rw [ho, hd, hf]
    _ = q' := rfl

end Query

/-! ## Clauses -/

/-- The clauses that touch the filter. -/
theorem Segment.parts_eq_nil {s : Segment} {count : CountStyle} (hw : s.identifier ≠ .where_)
    (hc : count = .existence → s.identifier ≠ .count) : s.parts count = [] := by
  rw [parts_of_ne_where hw]
  split
  · rename_i hi
    cases count with
    | pipeline => rfl
    | existence => exact absurd hi (hc rfl)
  · rfl

/-- Of two clauses of different concerns one leaves the filter alone, unless conditions meet the counting of what
exists. -/
theorem Segment.parts_eq_nil_or {s s' : Segment} {count : CountStyle}
    (hconcern : s.identifier.concern? ≠ s'.identifier.concern?)
    (hcount : count = .existence → ¬ (s.identifier = .count ∧ s'.identifier = .where_) ∧
      ¬ (s.identifier = .where_ ∧ s'.identifier = .count)) :
    s.parts count = [] ∨ s'.parts count = [] := by
  by_cases hw : s.identifier = .where_
  · refine .inr (parts_eq_nil ?_ fun he hc => (hcount he).2 ⟨hw, hc⟩)
    intro hw'
    exact hconcern (by rw [hw, hw'])
  by_cases hc : count = .existence ∧ s.identifier = .count
  · refine .inr (parts_eq_nil (fun hw' => (hcount hc.1).1 ⟨hc.2, hw'⟩) fun _ hc' => ?_)
    exact hconcern (by rw [hc.2, hc'])
  · exact .inl (parts_eq_nil hw fun he hi => hc ⟨he, hi⟩)

namespace Query

variable {q q₁ q₁₂ q₂ q₂₁ : Query} {s s' : Segment}

/-- Whether a clause is refused does not depend on the query. -/
theorem failAlike_readClause (q q' : Query) (s : Segment) : FailAlike (q.readClause s) (q'.readClause s) :=
  simulation_any.finish (.mk (c := q.openClause s.identifier) trivial) s.nodes

/-- The filter after two clauses, the first of which leaves it alone. -/
theorem filter_swap (hn : ∀ n ∈ s.nodes, n.identifier? = none) (hn' : ∀ n ∈ s'.nodes, n.identifier? = none)
    (hquiet : s.parts q.dialect.count = []) (h₁ : q.readClause s = .ok q₁) (h₁₂ : q₁.readClause s' = .ok q₁₂)
    (h₂ : q.readClause s' = .ok q₂) (h₂₁ : q₂.readClause s = .ok q₂₁) : q₁₂.filter = q₂₁.filter := by
  obtain ⟨hd₁, ht₁⟩ := takesAll_of_readClause hn h₁
  obtain ⟨_, ht₁₂⟩ := takesAll_of_readClause hn' h₁₂
  obtain ⟨hd₂, ht₂⟩ := takesAll_of_readClause hn' h₂
  obtain ⟨_, ht₂₁⟩ := takesAll_of_readClause hn h₂₁
  rw [hquiet] at ht₁
  rw [hd₂, hquiet] at ht₂₁
  have hf₁ : q₁.filter = q.filter := ht₁.unique (.nil _)
  have hf₂ : q₂₁.filter = q₂.filter := ht₂₁.unique (.nil _)
  rw [hd₁, hf₁] at ht₁₂
  rw [hf₂]
  exact ht₁₂.unique ht₂

/-- Two clauses that can be read can be read in the other order, with the same result. -/
theorem readClause_swap (hn : ∀ n ∈ s.nodes, n.identifier? = none) (hn' : ∀ n ∈ s'.nodes, n.identifier? = none)
    (hconcern : s.identifier.concern? ≠ s'.identifier.concern?)
    (hquiet : s.parts q.dialect.count = [] ∨ s'.parts q.dialect.count = [])
    (h₁ : q.readClause s = .ok q₁) (h₁₂ : q₁.readClause s' = .ok q₁₂) :
    ∃ q₂, q.readClause s' = .ok q₂ ∧ q₂.readClause s = .ok q₁₂ := by
  obtain ⟨q₂, h₂, _⟩ := (failAlike_readClause q₁ q s').exists_ok h₁₂
  obtain ⟨q₂₁, h₂₁, _⟩ := (failAlike_readClause q q₂ s).exists_ok h₁
  have houtline : q₁₂.outline = q₂₁.outline := by
    rw [outline_of_readClause hn' h₁₂, outline_of_readClause hn h₁, outline_of_readClause hn h₂₁,
      outline_of_readClause hn' h₂]
    refine foldl_say_comm (fun st hst st' hst' heq => hconcern ?_) q.outline
    rw [Segment.concern_of_mem hst, Segment.concern_of_mem hst', heq]
  have hdialect : q₁₂.dialect = q₂₁.dialect := by
    rw [(takesAll_of_readClause hn' h₁₂).1, (takesAll_of_readClause hn h₁).1, (takesAll_of_readClause hn h₂₁).1,
      (takesAll_of_readClause hn' h₂).1]
  have hfilter : q₁₂.filter = q₂₁.filter := by
    rcases hquiet with hquiet | hquiet
    · exact filter_swap hn hn' hquiet h₁ h₁₂ h₂ h₂₁
    · exact (filter_swap hn' hn hquiet h₂ h₂₁ h₁ h₁₂).symm
  exact ⟨q₂, h₂, eq_of_outline houtline hdialect hfilter ▸ h₂₁⟩

end Query

/-! ## Trees -/

/-- **Clauses of different concerns commute.** Two groups that stand side by side, each of them a single clause, can
change places: the tree compiles to the same query, or is refused as before. Only the conditions and the counting of
what exists have to stay in their order. -/
theorem compile_swap {name name' : String} {nodes nodes' : List Node} (hn : ∀ n ∈ nodes, n.identifier? = none)
    (hn' : ∀ n ∈ nodes', n.identifier? = none)
    (hconcern : (Identifier.ofName name).concern? ≠ (Identifier.ofName name').concern?) {dialect : Dialect}
    (hcount : dialect.count = .existence →
      ¬ (Identifier.ofName name = .count ∧ Identifier.ofName name' = .where_) ∧
      ¬ (Identifier.ofName name = .where_ ∧ Identifier.ofName name' = .count)) (groups others : List Group) :
    (compile dialect ⟨groups ++ (.token ⟨.identifier, .str name⟩ :: nodes) ::
        (.token ⟨.identifier, .str name'⟩ :: nodes') :: others⟩).toOption =
      (compile dialect ⟨groups ++ (.token ⟨.identifier, .str name'⟩ :: nodes') ::
        (.token ⟨.identifier, .str name⟩ :: nodes) :: others⟩).toOption := by
  have hpair : ∀ q : Query, q.dialect = dialect →
      (q.readClause ⟨.ofName name, nodes⟩ >>= fun q => q.readClause ⟨.ofName name', nodes'⟩).toOption =
        (q.readClause ⟨.ofName name', nodes'⟩ >>= fun q => q.readClause ⟨.ofName name, nodes⟩).toOption := by
    intro q hq
    have hquiet : Segment.parts dialect.count ⟨.ofName name, nodes⟩ = [] ∨
        Segment.parts dialect.count ⟨.ofName name', nodes'⟩ = [] := Segment.parts_eq_nil_or hconcern hcount
    rw [← hq] at hquiet
    refine toOption_eq_of_ok_iff fun r => ?_
    rw [bind_eq_ok, bind_eq_ok]
    constructor
    · rintro ⟨q₁, h₁, h₁₂⟩
      exact Query.readClause_swap hn hn' hconcern hquiet h₁ h₁₂
    · rintro ⟨q₂, h₂, h₂₁⟩
      exact Query.readClause_swap hn' hn hconcern.symm hquiet.symm h₂ h₂₁
  simp only [compile, List.foldlM_append, List.foldlM_cons, Query.walk_clause]
  cases hgroups : groups.foldlM Query.walk (Query.empty dialect) with
  | error e => rfl
  | ok q =>
    have hprefix : compile dialect ⟨groups⟩ = .ok q := hgroups
    have hq : q.dialect = dialect := dialect_of_compile hprefix
    show (q.readClause _ >>= fun q => q.readClause _ >>= fun q => others.foldlM Query.walk q).toOption =
      (q.readClause _ >>= fun q => q.readClause _ >>= fun q => others.foldlM Query.walk q).toOption
    rw [← bind_assoc, ← bind_assoc, toOption_bind, hpair q hq, ← toOption_bind]

/-- A count, a projection and conditions, all on one attribute. -/
def Group.counting : Group := [.token ⟨.identifier, .str "COUNT"⟩, .token ⟨.value, .str "a"⟩]

def Group.projecting : Group := [.token ⟨.identifier, .str "SELECT"⟩, .token ⟨.value, .arr [.str "a", .str "b"]⟩]

def Group.comparing : Group := [
  .token ⟨.identifier, .str "WHERE"⟩, .token ⟨.key, .str "a"⟩, .token ⟨.operator, .str ">"⟩, .token ⟨.value, .int 1⟩]

theorem compile_swap_projection : ∃ q,
    compile { count := .existence } ⟨[Group.comparing, Group.projecting, Group.counting]⟩ = .ok q ∧
      compile { count := .existence } ⟨[Group.comparing, Group.counting, Group.projecting]⟩ = .ok q := by
  have hconcern : (Identifier.ofName "SELECT").concern? ≠ (Identifier.ofName "COUNT").concern? := by decide +kernel
  have hcount : ¬ (Identifier.ofName "SELECT" = .count ∧ Identifier.ofName "COUNT" = .where_) ∧
      ¬ (Identifier.ofName "SELECT" = .where_ ∧ Identifier.ofName "COUNT" = .count) := by decide +kernel
  have hswap : (compile { count := .existence } ⟨[Group.comparing, Group.projecting, Group.counting]⟩).toOption =
      (compile { count := .existence } ⟨[Group.comparing, Group.counting, Group.projecting]⟩).toOption :=
    compile_swap (by decide) (by decide) hconcern (fun _ => hcount) [Group.comparing] []
  have hok : (compile { count := .existence } ⟨[Group.comparing, Group.projecting, Group.counting]⟩).isOk = true := by
    decide +kernel
  obtain ⟨q, hq⟩ := exists_eq_ok hok
  refine ⟨q, hq, ?_⟩
  have hother : (compile { count := .existence } ⟨[Group.comparing, Group.counting, Group.projecting]⟩).toOption =
      some q := hswap.symm.trans (congrArg Except.toOption hq)
  cases h : compile { count := .existence } ⟨[Group.comparing, Group.counting, Group.projecting]⟩ with
  | error e =>
    rw [h] at hother
    cases hother
  | ok q' =>
    rw [h] at hother
    exact congrArg Except.ok (Option.some.inj hother)

-- The order of the operators under `a` is that of the clauses, so these two do not commute.
example : (compile { count := .existence } ⟨[Group.comparing, Group.counting]⟩).toOption ≠
    (compile { count := .existence } ⟨[Group.counting, Group.comparing]⟩).toOption := by
  decide +kernel

end DocQuery
