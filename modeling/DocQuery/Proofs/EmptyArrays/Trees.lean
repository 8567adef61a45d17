import DocQuery.Proofs.Dialects
import DocQuery.Proofs.EmptyArrays.Reduction
import DocQuery.Proofs.Filter.Choices
import DocQuery.Proofs.Places

/-!
# Empty arrays in trees

`ArrayPlace` is a tree with a place for an array, at any depth inside a filter clause; every array of a filter clause
has one (`Tree.exists_arrayPlace`). An empty array at its end never makes the tree fail or succeed, and changes nothing
but the filter. It changes the filter where a lone value is one of several alternatives (`ArrayPlace.IsAlternative`):
there the value is required afterwards, and the filter has one choice less. Everywhere else the query stays as it is
(`ArrayPlace.compile_append_empty`).
-/

namespace DocQuery

open Grouping

/-! ## What a mark changes in the filter -/

namespace Expr.Variant

variable {style : LikeStyle} {k : Option Combinator} {e e' : Expr}

theorem leaves_eq (h : Variant k e e') : e'.leaves = e.leaves := by
  induction h with
  | clause h => simp [leaves, clauses, h.leaf]
  | @group _ _ join e e' before after _ _ ih =>
    show leavesAll (before ++ e' :: after) = leavesAll (before ++ e :: after)
    rw [leavesAll_append, leavesAll_append, leavesAll_cons, leavesAll_cons, ih]

/-- Whether a member can be added does not depend on marks. -/
theorem failAlike_addMember (h : Variant k e e') (join : Combinator) (f f' : Filter) :
    FailAlike (Filter.addMember style join f e) (Filter.addMember style join f' e') := by
  induction h generalizing join f f' with
  | clause h =>
    rw [Filter.addMember_clause_eq, Filter.addMember_clause_eq, h.leaf]
    exact Filter.failAlike_apply style style f f' _ _ _ _
  | @group _ _ inner e e' before after _ _ ih =>
    have hnested : FailAlike (Filter.addMembers style inner [] (before ++ e :: after))
        (Filter.addMembers style inner [] (before ++ e' :: after)) := by
      rw [Filter.addMembers_append, Filter.addMembers_append]
      refine .bind_same _ fun f₁ => (ih inner f₁ f₁).bind fun f₂ f₂' _ => ?_
      exact Filter.failAlike_addMembers style style inner inner after f₂ f₂'
    rw [Filter.addMember, Filter.addMember]
    exact hnested.bind fun _ _ _ => .ok trivial

theorem failAlike_addExpr (h : Variant k e e') (outer : Combinator) (f : Filter) :
    FailAlike (f.addExpr style outer e) (f.addExpr style outer e') := by
  have hmember : FailAlike (Filter.addMember style outer f e) (Filter.addMember style outer f e') :=
    h.failAlike_addMember outer f f
  cases h with
  | clause h =>
    rw [Filter.addExpr_clause_eq, Filter.addExpr_clause_eq, h.leaf]
    exact .refl (fun _ => trivial) _
  | group before after _ _ => rwa [Filter.addExpr_group_eq, Filter.addExpr_group_eq]

/-- A mark is not seen in a group that is joined by `AND`. -/
theorem addMember_eq (h : Variant k e e') {join : Combinator} (hk : k.or (some join) = some .and) (f : Filter) :
    Filter.addMember style join f e = Filter.addMember style join f e' := by
  induction h generalizing join f with
  | clause h =>
    obtain rfl : join = .and := by simpa using hk
    simp only [Filter.addMember_clause_eq, h.leaf, or_true]
  | @group k _ inner e e' before after _ hk' ih =>
    have hinner : k.or (some inner) = some .and := by
      rwa [hk', Option.or_assoc] at hk
    rw [Filter.addMember, Filter.addMember, Filter.addMembers_append, Filter.addMembers_append]
    simp only [Filter.addMembers, ih hinner]

theorem addExpr_eq (h : Variant k e e') (hk : k ≠ some .or) (outer : Combinator) (f : Filter) :
    f.addExpr style outer e = f.addExpr style outer e' := by
  cases h with
  | clause h => rw [Filter.addExpr_clause_eq, Filter.addExpr_clause_eq, h.leaf]
  | @group k₀ _ inner e e' before after h hk' =>
    have hmember : Variant k (.group inner (before ++ e :: after)) (.group inner (before ++ e' :: after)) :=
      .group before after h hk'
    rw [Filter.addExpr_group_eq, Filter.addExpr_group_eq]
    refine hmember.addMember_eq ?_ f
    cases k with
    | none => cases k₀ <;> cases hk'
    | some c =>
      cases c with
      | and => rfl
      | or => exact absurd rfl hk

/-- In a group that is joined by `OR`, a mark takes a choice away. -/
theorem choices_eq (h : Variant k e e') {join : Combinator} (hk : k.or (some join) = some .or) :
    e.choices join = e'.choices join + 1 := by
  induction h generalizing join with
  | clause h =>
    obtain rfl : join = .or := by simpa using hk
    rw [choices, choices, h.untagged, h.tagged]
    rfl
  | @group k _ inner e e' before after _ hk' ih =>
    have hinner : k.or (some inner) = some .or := by
      rwa [hk', Option.or_assoc] at hk
    have he := ih hinner
    simp only [choices, choicesAll_append, choicesAll, he]
    omega

theorem innerChoices_eq (h : Variant (some .or) e e') : e.innerChoices = e'.innerChoices + 1 := by
  have hchoices : e.choices .and = e'.choices .and + 1 := h.choices_eq rfl
  cases h with
  | group before after _ _ => simpa [choices, Combinator.choice, innerChoices] using hchoices

end Expr.Variant

/-! ## Arrays of filter clauses -/

/-- A place for an array inside a filter clause, at any depth: the tree around the clause, the nodes of the clause
around the outermost array, and the way down from there. -/
structure ArrayPlace where
  clause : Place
  isFilter : clause.identifier = .where_
  pre : List Node
  post : List Node
  free : ∀ n ∈ pre ++ post, n.identifier? = none
  path : ArrayPath

namespace ArrayPlace

variable (p : ArrayPlace)

/-- The nodes of the clause, with the array. -/
def nodes (a : List Node) : List Node := p.pre ++ .group (p.path.fill a) :: p.post

/-- The tree with the array. -/
def fill (a : List Node) : Tree := p.clause.fill (p.nodes a)

/-- The array is a value alone, and the first array around it that has another value is joined by `OR`. -/
def IsAlternative (a : List Node) : Prop := Group.isLone a = true ∧ p.path.combinator? a = some .or

theorem free_nodes (a : List Node) : ∀ n ∈ p.nodes a, n.identifier? = none := by
  obtain ⟨hpre, hpost⟩ := List.forall_mem_append.mp p.free
  rw [nodes, List.forall_mem_append, List.forall_mem_cons]
  exact ⟨hpre, rfl, hpost⟩

/-- The group with the clause, around the outermost array. -/
theorem fill_eq (a : List Node) :
    p.fill a = ⟨p.clause.groups ++
      ((p.clause.before ++ .token ⟨.identifier, .str p.clause.name⟩ :: p.pre) ++
        .group (p.path.fill a) :: (p.post ++ p.clause.after)) :: p.clause.others⟩ := by
  simp [fill, nodes, Place.fill, Place.group]

/-- Arrays that every query takes alike can be exchanged. -/
theorem compile_congr {a a' : List Node}
    (h : ∀ (q : Query) markers outer,
      q.applyGroup markers outer (p.path.fill a) = q.applyGroup markers outer (p.path.fill a')) (dialect : Dialect) :
    compile dialect (p.fill a) = compile dialect (p.fill a') := by
  have hstep := Cursor.step_array_congr h
  rw [fill_eq, fill_eq]
  simp only [compile, Query.walk, List.foldlM_append, List.foldlM_cons, hstep]

/-- The parts of the tree, around the outermost array. -/
theorem exists_parts_fill (count : CountStyle) :
    ∃ before join markers after, ∀ a,
      (p.fill a).parts count = before ++ .array join markers (p.path.fill a) :: after := by
  let r := p.pre.foldl Reader.after {}
  let s₁ := Tree.segments ⟨p.clause.groups⟩ ++ (Group.cut p.clause.before).2
  let s₂ := (Group.cut p.clause.after).2 ++ Tree.segments ⟨p.clause.others⟩
  refine ⟨s₁.flatMap (Segment.parts count) ++ Reader.parts {} p.pre, r.combinator.getD .or, r.modifiers.markers,
    ({ r with modifiers := {}, draft := {} } : Reader).parts p.post ++ s₂.flatMap (Segment.parts count), fun a => ?_⟩
  have hclause : Segment.parts count ⟨p.clause.identifier, p.nodes a⟩ = Reader.parts {} (p.nodes a) :=
    Segment.parts_where p.isFilter
  rw [Tree.parts, fill, p.clause.segments_fill (p.free_nodes a), List.flatMap_append, List.flatMap_cons, hclause, nodes,
    Reader.parts_append, Reader.parts]
  simp [Reader.part?, Reader.after, r, s₁, s₂]

end ArrayPlace

mutual

theorem Node.exists_path_of_mem_arrays : ∀ {node : Node} {a : List Node}, a ∈ node.arrays →
    ∃ path : ArrayPath, node = .group (path.fill a)
  | .token _, _, h => by simp [Node.arrays] at h
  | .group nodes, a, h => by
    rcases List.mem_cons.mp h with rfl | h
    · exact ⟨[], rfl⟩
    · obtain ⟨pre, path, post, rfl⟩ := Group.exists_path_of_mem_arrays h
      exact ⟨(pre, post) :: path, rfl⟩

theorem Group.exists_path_of_mem_arrays : ∀ {nodes a : List Node}, a ∈ Group.arrays nodes →
    ∃ pre path post, nodes = pre ++ .group (ArrayPath.fill a path) :: post
  | [], _, h => by simp [Group.arrays] at h
  | node :: rest, a, h => by
    rcases List.mem_append.mp h with h | h
    · obtain ⟨path, rfl⟩ := Node.exists_path_of_mem_arrays h
      exact ⟨[], path, rest, rfl⟩
    · obtain ⟨pre, path, post, rfl⟩ := Group.exists_path_of_mem_arrays h
      exact ⟨node :: pre, path, post, rfl⟩

end

/-- Every array inside a filter clause, at any depth, has a place. -/
theorem Tree.exists_arrayPlace {tree : Tree} {s : Segment} (hs : s ∈ tree.segments) (hi : s.identifier = .where_)
    {a : List Node} (ha : a ∈ Group.arrays s.nodes) : ∃ p : ArrayPlace, tree = p.fill a := by
  obtain ⟨clause, hidentifier, rfl⟩ := Tree.exists_place_of_mem_segments hs
  obtain ⟨pre, path, post, hnodes⟩ := Group.exists_path_of_mem_arrays ha
  have hfree := Tree.identifier?_of_mem_segments hs
  rw [hnodes, List.forall_mem_append, List.forall_mem_cons] at hfree
  refine ⟨⟨clause, hidentifier.trans hi, pre, post, List.forall_mem_append.mpr ⟨hfree.1, hfree.2.2⟩, path⟩, ?_⟩
  rw [ArrayPlace.fill, ArrayPlace.nodes, ← hnodes]

/-! ## An empty array at the end -/

namespace ArrayPlace

variable (p : ArrayPlace) {a : List Node} {dialect : Dialect}

/-- Where the array is no alternative, every query takes it as before. -/
theorem applyGroup_append_empty (h : ¬ p.IsAlternative a) (q : Query) (markers : List Marker)
    (outer : Option Combinator) :
    q.applyGroup markers outer (p.path.fill a) = q.applyGroup markers outer (p.path.fill (a ++ [.group []])) := by
  unfold Query.applyGroup
  cases hlone : Group.isLone a with
  | false => rw [ArrayPath.reduce_append_empty_of_not_lone hlone]
  | true =>
    have hk : p.path.combinator? a ≠ some .or := fun hor => h ⟨hlone, hor⟩
    have hagree := ArrayPath.reduce_append_empty_of_lone hlone p.path markers
    generalize reduce markers (p.path.fill a) = x at hagree ⊢
    generalize reduce markers (p.path.fill (a ++ [.group []])) = y at hagree ⊢
    cases hagree with
    | error e => rfl
    | ok hvaried =>
      obtain ⟨e, e', rfl, rfl, hvariant⟩ := hvaried
      show q.applyExpr (outer.getD .or) e = q.applyExpr (outer.getD .or) e'
      simp only [Query.applyExpr, hvariant.addExpr_eq hk]

theorem compile_eq (h : ¬ p.IsAlternative a) (dialect : Dialect) :
    compile dialect (p.fill a) = compile dialect (p.fill (a ++ [.group []])) :=
  p.compile_congr (p.applyGroup_append_empty h) dialect

/-- The empty array is seen in the filter, if at all. -/
theorem agree_outline (a : List Node) (dialect : Dialect) :
    Agree Query.SameOutline (compile dialect (p.fill a)) (compile dialect (p.fill (a ++ [.group []]))) := by
  have hrefl : ∀ q : Query, q.SameOutline q := fun q => .mk q q.dialect q.filter
  cases hlone : Group.isLone a with
  | false =>
    have hnot : ¬ p.IsAlternative a := fun h => absurd h.1 (by simp [hlone])
    rw [p.compile_eq hnot]
    exact .refl hrefl _
  | true =>
    rw [fill_eq, fill_eq]
    refine Query.simulation_outline.compile_array hrefl (fun q markers outer => ?_) dialect _ _ _ _
    refine (ArrayPath.reduce_append_empty_of_lone hlone p.path markers).bind fun member member' hvaried => ?_
    obtain ⟨e, e', rfl, rfl, hvariant⟩ := hvaried
    exact (hvariant.failAlike_addExpr (outer.getD .or) q.filter).bind fun _ _ _ => .ok (.mk _ _ _)

/-- Where the array is an alternative, the outermost array keeps its leaves and has one choice less. -/
theorem part_append_empty (h : p.IsAlternative a) {markers : List Marker} {member : Option Expr} (join : Combinator)
    (hr : reduce markers (p.path.fill a) = .ok member) :
    (Part.array join markers (p.path.fill (a ++ [.group []]))).leaves =
        (Part.array join markers (p.path.fill a)).leaves ∧
      (Part.array join markers (p.path.fill a)).choices =
        (Part.array join markers (p.path.fill (a ++ [.group []]))).choices + 1 := by
  obtain ⟨member', hr', e, e', rfl, rfl, hvariant⟩ :=
    (ArrayPath.reduce_append_empty_of_lone h.1 p.path markers).exists_ok hr
  rw [h.2] at hvariant
  constructor
  · rw [Part.leaves_array join hr, Part.leaves_array join hr']
    simp only [Option.toList_some, Expr.leavesAll_singleton, hvariant.leaves_eq]
  · have hmark := hvariant.innerChoices_eq
    simp only [Part.choices, hr, hr']
    omega

theorem choices_eq {q q' : Query} (h : p.IsAlternative a) (hq : compile dialect (p.fill a) = .ok q)
    (hq' : compile dialect (p.fill (a ++ [.group []])) = .ok q') (hunique : (p.fill a).HasUniqueKeys)
    (hconnectives : (p.fill a).AvoidsConnectives) : q.filter.choices = q'.filter.choices + 1 := by
  obtain ⟨before, join, markers, after, hparts⟩ := p.exists_parts_fill dialect.count
  have htakes := takesAll_of_compile hq
  have htakes' := takesAll_of_compile hq'
  have hproper := Tree.proper_parts hconnectives hunique dialect.count
  rw [hparts] at htakes htakes' hproper
  obtain ⟨member, hr⟩ : ∃ member, reduce markers (p.path.fill a) = .ok member := by
    obtain ⟨f, _, hrest⟩ := htakes.exists_of_append
    cases hrest with
    | cons harray _ => exact harray.reduce_eq_ok
  obtain ⟨hleaves, hpart⟩ := p.part_append_empty h join hr
  have hproper' : ∀ part ∈ before ++ .array join markers (p.path.fill (a ++ [.group []])) :: after,
      ∀ l ∈ part.leaves, l.Proper := by
    rw [List.forall_mem_append, List.forall_mem_cons] at hproper ⊢
    rwa [hleaves]
  have hchoices := (Filter.Offers.empty.takesAll hproper htakes).choices
  have hchoices' := (Filter.Offers.empty.takesAll hproper' htakes').choices
  rw [Part.choicesAll_append, Part.choicesAll] at hchoices hchoices'
  omega

/-- **Empty arrays.** Every array inside a filter clause has a place. An empty array at its end neither causes nor hides
an error, and changes nothing in the query but the filter. It changes nothing at all, unless the array is a lone value
among alternatives. There the filter always changes: the value is no alternative any more, but required. -/
theorem compile_append_empty (dialect : Dialect) :
    (∀ (tree : Tree), ∀ s ∈ tree.segments, s.identifier = .where_ → ∀ a ∈ Group.arrays s.nodes,
      ∃ p : ArrayPlace, tree = p.fill a) ∧
    ∀ (p : ArrayPlace) (a : List Node),
      Agree Query.SameOutline (compile dialect (p.fill a)) (compile dialect (p.fill (a ++ [.group []]))) ∧
      (¬ p.IsAlternative a → compile dialect (p.fill a) = compile dialect (p.fill (a ++ [.group []]))) ∧
      (p.IsAlternative a → (p.fill a).HasUniqueKeys → (p.fill a).AvoidsConnectives →
        ∀ q q', compile dialect (p.fill a) = .ok q → compile dialect (p.fill (a ++ [.group []])) = .ok q' →
          q.filter.choices = q'.filter.choices + 1) := by
  constructor
  · intro tree s hs hi a ha
    exact Tree.exists_arrayPlace hs hi ha
  · intro p a
    refine ⟨p.agree_outline a dialect, fun h => p.compile_eq h dialect, ?_⟩
    intro h hunique hconnectives q q' hq hq'
    exact p.choices_eq h hq hq' hunique hconnectives

/-- A place in an array of two values, with words between them. -/
def pair (words : List Node) : ArrayPlace where
  clause := ⟨[[.token ⟨.identifier, .str "FROM"⟩, .token ⟨.value, .str "t"⟩]], [], "WHERE", [], [], Group.cut_nil⟩
  isFilter := by decide +kernel
  pre := []
  post := []
  free := by simp
  path := [([], words ++ [.group [.token ⟨.key, .str "b"⟩, .token ⟨.value, .int 2⟩]])]

def pairFirst : List Node := [.token ⟨.key, .str "a"⟩, .token ⟨.value, .int 1⟩]

theorem compile_append_empty_pair :
    (∃ q q', compile {} ((pair []).fill pairFirst) = .ok q ∧
      compile {} ((pair []).fill (pairFirst ++ [.group []])) = .ok q' ∧ q.filter.choices = q'.filter.choices + 1) ∧
    compile {} ((pair [.token ⟨.condition, .str "AND"⟩]).fill pairFirst) =
      compile {} ((pair [.token ⟨.condition, .str "AND"⟩]).fill (pairFirst ++ [.group []])) := by
  have hfrom : Identifier.ofName "FROM" = .from_ := by decide +kernel
  have hwhere : Identifier.ofName "WHERE" = .where_ := by decide +kernel
  have hsegments : ((pair []).fill pairFirst).segments =
      [⟨.from_, [.token ⟨.value, .str "t"⟩]⟩, ⟨.where_, (pair []).nodes pairFirst⟩] := by
    simp [Tree.segments, fill, Place.fill, Place.group, pair, nodes, Group.cut, Node.identifier?, hfrom, hwhere]
  have halternative : (pair []).IsAlternative pairFirst := ⟨by decide +kernel, by decide +kernel⟩
  have hrequired : ¬ (pair [.token ⟨.condition, .str "AND"⟩]).IsAlternative pairFirst := fun h =>
    absurd h.2 (by decide +kernel)
  have hunique : ((pair []).fill pairFirst).HasUniqueKeys := by
    unfold Tree.HasUniqueKeys
    decide
  have hconnectives : ((pair []).fill pairFirst).AvoidsConnectives := by
    constructor
    · rw [hsegments]
      decide
    · rw [hsegments]
      decide
  obtain ⟨hagree, _, hchoices⟩ := (compile_append_empty {}).2 (pair []) pairFirst
  have hok : (compile {} ((pair []).fill pairFirst)).isOk = true := by decide +kernel
  obtain ⟨q, hq⟩ := exists_eq_ok hok
  obtain ⟨q', hq', _⟩ := hagree.exists_ok hq
  exact ⟨⟨q, q', hq, hq', hchoices halternative hunique hconnectives q q' hq hq'⟩,
    ((compile_append_empty {}).2 _ pairFirst).2.1 hrequired⟩

end ArrayPlace

end DocQuery
