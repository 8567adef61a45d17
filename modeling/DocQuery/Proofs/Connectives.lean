import DocQuery.Proofs.Filter.Additions

/-!
# Connectives that connect something

A group of one member is that member and a group of none is nothing, so that every group in a reduced expression has at
least two members (`Grouping.branching_of_reduce`).

A filter is *sound* (`Filter.Sound`) if its connectives, at any depth, are lists of at least one filter, each with an
entry. An addition opens a connective with an element or appends one, and an element is a condition or a filter that
says something; so additions under attributes keep a filter sound (`Filter.Sound.performAll`), and the filter of a
compiled tree is sound (`connectives_filled`).
-/

namespace DocQuery

open Grouping

/-! ## Groups of expressions -/

namespace Expr

mutual

/-- Every group in it, at any depth, has at least two members. -/
def Branching : Expr → Prop
  | .clause _ => True
  | .group _ members => 2 ≤ members.length ∧ AllBranching members

def AllBranching : List Expr → Prop
  | [] => True
  | e :: rest => e.Branching ∧ AllBranching rest

end

theorem allBranching_iff (members : List Expr) : AllBranching members ↔ ∀ e ∈ members, e.Branching := by
  induction members with
  | nil => simp [AllBranching]
  | cons e rest ih => rw [AllBranching, ih, List.forall_mem_cons]

/-- Markers in front of a group touch its clause only. -/
theorem Branching.inherit {markers : List Marker} {e e' : Expr} (h : e.Branching) (he : e.inherit markers = .ok e') :
    e'.Branching := by
  rcases inherit_eq_ok he with ⟨_, rfl⟩ | ⟨c, _, rfl⟩
  · exact h
  · trivial

end Expr

namespace Grouping

/-- Reduction, once the members of the group are known to branch. -/
theorem branching_of_members {nodes : List Node} {markers : List Marker} {member : Option Expr}
    (hmembers : ∀ news, GivesAll (isConjoined nodes) {} nodes news → ∀ e ∈ news, e.Branching)
    (h : reduce markers nodes = .ok member) : ∀ e ∈ member.toList, e.Branching := by
  intro e he
  obtain ⟨news, hall, hclose⟩ := reduce_eq_ok h
  have hnews := hmembers news hall
  rcases hclose with ⟨_, rfl⟩ | ⟨e₀, e', rfl, hinherit, rfl⟩ | ⟨htwo, _, rfl⟩
  · cases he
  · obtain rfl : e = e' := by simpa using he
    exact (hnews e₀ List.mem_cons_self).inherit hinherit
  · obtain rfl : e = .group (Group.join nodes) news := by simpa using he
    exact ⟨htwo, (Expr.allBranching_iff news).mpr hnews⟩

mutual

theorem Gives.branching : ∀ {node : Node} {conjoined : Bool} {d : Draft} {new : List Expr},
    Gives conjoined d node new → ∀ e ∈ new, e.Branching
  | .token _, _, _, _, .clause _ _ _ => by simp [Expr.Branching]
  | .token _, _, _, _, .token _ _ _ => by simp
  | .group _, _, _, _, .array h => branching_of_members (fun _ hnews => GivesAll.branching hnews) h

theorem GivesAll.branching : ∀ {nodes : List Node} {conjoined : Bool} {d : Draft} {news : List Expr},
    GivesAll conjoined d nodes news → ∀ e ∈ news, e.Branching
  | [], _, _, _, .nil _ => by simp
  | _ :: _, _, _, _, .cons h hs => List.forall_mem_append.mpr ⟨Gives.branching h, GivesAll.branching hs⟩

end

theorem branching_of_reduce {nodes : List Node} {markers : List Marker} {e : Expr}
    (h : reduce markers nodes = .ok (some e)) : e.Branching :=
  branching_of_members (fun _ hnews => GivesAll.branching hnews) h e (by simp)

end Grouping

/-! ## Connectives of filters -/

namespace Filter

variable {f f' nested : Filter} {key : String} {fragment : Json}

/-- The entries of connectives in a filter: its own, and those inside an element of another one. -/
inductive HasConnective (f : Filter) : Combinator → Json → Prop
  | entry {c : Combinator} {value : Json} (h : (c.operator, value) ∈ f) : HasConnective f c value
  | inside {c c' : Combinator} {items : List Json} {nested : Filter} {value : Json}
      (h : HasConnective f c (.arr items)) (hnested : .obj nested ∈ items) (hvalue : (c'.operator, value) ∈ nested) :
      HasConnective f c' value

/-- A list of at least one filter, each with an entry. -/
def IsFilled (value : Json) : Prop :=
  ∃ items, value = .arr items ∧ items ≠ [] ∧ ∀ item ∈ items, ∃ nested : Filter, item = .obj nested ∧ nested ≠ []

/-- All connectives are filled, at any depth. -/
inductive Sound : Filter → Prop
  | intro {f : Filter} (filled : ∀ (c : Combinator) value, (c.operator, value) ∈ f → IsFilled value)
      (inner : ∀ (c : Combinator) items nested, (c.operator, .arr items) ∈ f → .obj nested ∈ items → Sound nested) :
      Sound f

namespace Sound

theorem filled (h : f.Sound) (c : Combinator) {value : Json} (hv : (c.operator, value) ∈ f) : IsFilled value := by
  cases h with
  | intro filled _ => exact filled c value hv

theorem inner (h : f.Sound) {c : Combinator} {items : List Json} (hi : (c.operator, .arr items) ∈ f)
    (hn : .obj nested ∈ items) : nested.Sound := by
  cases h with
  | intro _ inner => exact inner c items nested hi hn

theorem empty : Sound [] := .intro (by simp) (by simp)

/-- What has been said of the entries of a sound filter holds at any depth. -/
theorem isFilled (h : f.Sound) {c : Combinator} {value : Json} (hc : f.HasConnective c value) : IsFilled value := by
  have hboth : IsFilled value ∧ ∀ items, value = .arr items → ∀ nested, .obj nested ∈ items → Sound nested := by
    induction hc with
    | @entry c value hv =>
      refine ⟨h.filled c hv, ?_⟩
      rintro items rfl nested hn
      exact h.inner hv hn
    | @inside _ c' items nested value _ hn hv ih =>
      have hnested := ih.2 items rfl nested hn
      refine ⟨hnested.filled c' hv, ?_⟩
      rintro items' rfl nested' hn'
      exact hnested.inner hv hn'
  exact hboth.1

end Sound

/-! ## Additions -/

/-- A push is an insertion of the list with the new element. -/
theorem push_eq_insert (f : Filter) (c : Combinator) (entry : Json) :
    f.push c entry = f.insert c.operator (.arr (f.elements c ++ [entry])) := by
  cases hfind : f.find? c.operator with
  | none => simp [push, elements, hfind]
  | some value => cases value <;> simp [push, elements, hfind]

theorem mem_of_mem_elements {c : Combinator} {item : Json} (h : item ∈ f.elements c) :
    ∃ items, (c.operator, .arr items) ∈ f ∧ item ∈ items := by
  unfold elements at h
  split at h
  · rename_i items hfind
    exact ⟨items, Fields.mem_of_find? hfind, h⟩
  · cases h

/-- The entries of connectives after a condition on an attribute: those that were there, and `$and` with one more. -/
theorem mem_conjoin (hkey : Combinator.ofOperator? key = none) {c : Combinator} {value : Json}
    (h : (c.operator, value) ∈ f.conjoin key fragment) :
    (c.operator, value) ∈ f ∨ (c.operator, value) ∈ f.push .and (.single key fragment) := by
  have hinsert : ∀ entry, (c.operator, value) ∈ f.insert key entry → (c.operator, value) ∈ f := by
    intro entry hmem
    rcases Fields.mem_of_mem_insert hmem with hmem | heq
    · exact hmem
    · exact absurd (congrArg Prod.fst heq).symm (Combinator.ne_operator hkey c)
  unfold conjoin at h
  split at h
  · exact .inl (hinsert _ h)
  · split at h
    · exact .inl (hinsert _ h)
    · exact .inr h

namespace Sound

/-- What is under a connective of a sound filter. -/
theorem of_mem_elements (h : f.Sound) {c : Combinator} {item : Json} (hi : item ∈ f.elements c) :
    ∃ nested : Filter, item = .obj nested ∧ nested ≠ [] ∧ nested.Sound := by
  obtain ⟨items, hitems, hi⟩ := mem_of_mem_elements hi
  obtain ⟨items', heq, _, hfilled⟩ := h.filled c hitems
  cases heq
  obtain ⟨nested, rfl, hne⟩ := hfilled item hi
  exact ⟨nested, rfl, hne, h.inner hitems hi⟩

/-- One more filter under a connective. -/
theorem push (h : f.Sound) (c : Combinator) (hn : nested.Sound) (hne : nested ≠ []) :
    Sound (f.push c (.obj nested)) := by
  have hitems : ∀ item ∈ f.elements c ++ [.obj nested], ∃ o : Filter, item = .obj o ∧ o ≠ [] ∧ o.Sound := by
    intro item hitem
    rcases List.mem_append.mp hitem with hitem | hitem
    · exact h.of_mem_elements hitem
    · exact ⟨nested, List.mem_singleton.mp hitem, hne, hn⟩
  rw [push_eq_insert]
  refine .intro (fun c' value hv => ?_) (fun c' items o hi ho => ?_)
  · rcases Fields.mem_of_mem_insert hv with hv | hv
    · exact h.filled c' hv
    · refine ⟨_, congrArg Prod.snd hv, by simp, fun item hitem => ?_⟩
      obtain ⟨o, rfl, hne, _⟩ := hitems item hitem
      exact ⟨o, rfl, hne⟩
  · rcases Fields.mem_of_mem_insert hi with hi | hi
    · exact h.inner hi ho
    · obtain rfl : items = f.elements c ++ [.obj nested] := by simpa using congrArg Prod.snd hi
      obtain ⟨o', heq, _, hsound⟩ := hitems _ ho
      cases heq
      exact hsound

theorem graft (h : f.Sound) (c : Combinator) (hn : nested.Sound) : Sound (f.graft c nested) := by
  unfold Filter.graft
  split
  · exact h
  · rename_i hne
    exact h.push c hn (by simpa using hne)

/-- A condition on an attribute is a sound filter by itself. -/
theorem single (hkey : Combinator.ofOperator? key = none) (fragment : Json) : Sound [(key, fragment)] := by
  have hnone : ∀ (c : Combinator) value, (c.operator, value) ∉ [(key, fragment)] := by
    intro c value hmem
    exact Combinator.ne_operator hkey c (congrArg Prod.fst (List.mem_singleton.mp hmem)).symm
  exact .intro (fun c value hv => absurd hv (hnone c value)) (fun c items _ hi => absurd hi (hnone c (.arr items)))

theorem pushSingle (h : f.Sound) (c : Combinator) (hkey : Combinator.ofOperator? key = none) (fragment : Json) :
    Sound (f.push c (.single key fragment)) :=
  h.push c (single hkey fragment) (by simp)

theorem conjoin (h : f.Sound) (hkey : Combinator.ofOperator? key = none) (fragment : Json) :
    Sound (f.conjoin key fragment) := by
  have hpush := h.pushSingle .and hkey fragment
  refine .intro (fun c value hv => ?_) (fun c items o hi ho => ?_)
  · rcases mem_conjoin hkey hv with hv | hv
    · exact h.filled c hv
    · exact hpush.filled c hv
  · rcases mem_conjoin hkey hi with hi | hi
    · exact h.inner hi ho
    · exact hpush.inner hi ho

/-- **Additions under attributes keep a filter sound.** The groups among them are filters of their own, which are left
out if they are empty. -/
theorem performAll {style : LikeStyle} {additions : List Addition} (h : f.Sound)
    (hkeys : ∀ l ∈ Addition.leavesAll additions, Combinator.ofOperator? l.condition.key = none)
    (hp : f.performAll style additions = .ok f') : f'.Sound := by
  induction additions using Addition.groups_induction generalizing f f' with
  | step additions ihgroups =>
    have hgroup : ∀ c members nested, .nested c members ∈ additions →
        Filter.performAll style [] members = .ok nested → Sound nested := by
      intro c members nested hmem hn
      exact ihgroups c members hmem .empty (fun l hl => hkeys l (Addition.mem_leavesAll_of_nested hmem hl)) hn
    clear ihgroups
    induction additions generalizing f with
    | nil =>
      cases hp
      exact h
    | cons a rest ih =>
      rw [Addition.leavesAll, List.forall_mem_append] at hkeys
      obtain ⟨f₁, hfirst, hrest⟩ := performAll_cons hp
      refine ih ?_ hkeys.2 hrest fun c members nested hmem => hgroup c members nested (List.mem_cons_of_mem _ hmem)
      cases a with
      | entry l =>
        obtain ⟨fragment, _, rfl⟩ := perform_entry hfirst
        exact h.conjoin (hkeys.1 l List.mem_cons_self) fragment
      | element c l =>
        obtain ⟨fragment, _, rfl⟩ := perform_element hfirst
        exact h.pushSingle c (hkeys.1 l List.mem_cons_self) fragment
      | nested c members =>
        obtain ⟨nested, hnested, rfl⟩ := perform_nested hfirst
        exact h.graft c (hgroup c members nested List.mem_cons_self hnested)

end Sound

end Filter

/-! ## Trees -/

/-- What is added for a tree is on attributes. -/
theorem Tree.attribute_additions {tree : Tree} (hc : tree.AvoidsConnectives) (count : CountStyle) :
    ∀ l ∈ Addition.leavesAll (tree.additions count), Combinator.ofOperator? l.condition.key = none := by
  intro l hl
  obtain ⟨p, hp, hl⟩ := Tree.leaves_additions hl
  exact Tree.attribute_parts hc hp hl

/-- **No degenerate connectives.** Every group in the expression of an array has at least two members. In the filter of
a compiled tree in which `$and` and `$or` are no keys, every connective, at the root or inside the elements of another
one, is a list of at least one filter, each with an entry. -/
theorem connectives_filled :
    (∀ (markers : List Marker) (nodes : List Node) (e : Expr), reduce markers nodes = .ok (some e) → e.Branching) ∧
    ∀ (dialect : Dialect) (tree : Tree) (q : Query), compile dialect tree = .ok q → tree.AvoidsConnectives →
      ∀ c value, q.filter.HasConnective c value → Filter.IsFilled value := by
  constructor
  · intro markers nodes e h
    exact branching_of_reduce h
  · intro dialect tree q h hconnectives c value hvalue
    have hsound : q.filter.Sound :=
      Filter.Sound.empty.performAll (Tree.attribute_additions hconnectives dialect.count) (performAll_of_compile h)
    exact hsound.isFilled hvalue

/-- An empty array, an array around one condition, and a key that is compared twice. -/
def Group.sparse : List Node := [
  .group [], .group [.group [.token ⟨.key, .str "a"⟩, .token ⟨.value, .int 1⟩]],
  .group [.token ⟨.key, .str "b"⟩, .token ⟨.value, .int 2⟩, .token ⟨.key, .str "b"⟩, .token ⟨.value, .int 3⟩]]

def Tree.sparse : Tree := ⟨[[.token ⟨.identifier, .str "WHERE"⟩, .group Group.sparse]]⟩

/-- The connectives of its filter are `$or`, an `$or` inside, and an `$and` inside that. -/
def Filter.sparse : Filter :=
  [("$or", .arr [.obj [("$or", .arr [.single "a" (.int 1),
    .obj [("b", .int 2), ("$and", .arr [.single "b" (.int 3)])]])]])]

theorem connectives_filled_sparse :
    (∃ e, reduce [] Group.sparse = .ok (some e) ∧ e.Branching) ∧
    ∃ q, compile {} Tree.sparse = .ok q ∧ q.filter.HasConnective .and (.arr [.single "b" (.int 3)]) ∧
      ∀ c value, q.filter.HasConnective c value → Filter.IsFilled value := by
  have hwhere : Identifier.ofName "WHERE" = .where_ := by decide +kernel
  have hsegments : Tree.sparse.segments = [⟨.where_, [.group Group.sparse]⟩] := by
    simp [Tree.segments, Tree.sparse, Group.cut, Node.identifier?, hwhere]
  have hconnectives : Tree.sparse.AvoidsConnectives := by
    constructor
    · rw [hsegments]
      decide
    · rw [hsegments]
      simp
  have hcompile : (compile {} Tree.sparse).toOption = some { filter := Filter.sparse } := by decide +kernel
  obtain ⟨e, he⟩ : ∃ e, reduce [] Group.sparse = .ok (some e) := ⟨_, rfl⟩
  cases hq : compile {} Tree.sparse with
  | error e => simp [hq, Except.toOption] at hcompile
  | ok q =>
    obtain rfl : q = { filter := Filter.sparse } := by simpa [hq, Except.toOption] using hcompile
    refine ⟨⟨e, he, connectives_filled.1 [] Group.sparse e he⟩, _, rfl, ?_,
      connectives_filled.2 {} Tree.sparse _ hq hconnectives⟩
    have houter : Filter.sparse.HasConnective .or _ := .entry List.mem_cons_self
    have hinner : Filter.sparse.HasConnective .or _ := .inside houter List.mem_cons_self List.mem_cons_self
    exact .inside hinner (List.mem_cons_of_mem _ List.mem_cons_self) (List.mem_cons_of_mem _ List.mem_cons_self)

end DocQuery
