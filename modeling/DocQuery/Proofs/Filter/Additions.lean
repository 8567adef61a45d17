import DocQuery.Proofs.Attributes
import DocQuery.Proofs.Filter.Members

/-!
# A filter as a list of additions

Whatever reaches a filter is one of three additions: a condition among its entries, a condition under a connective, or
a filter under a connective that has its own additions. The additions of a tree are read off its parts, with no filter
in sight (`Tree.additions`), and the filter of a compiled tree is what they make of the empty filter one after the other
(`performAll_of_compile`). So what is to be shown of all filters is shown along `perform` and `performAll`, and does not
depend on how groups are reduced.
-/

namespace DocQuery

inductive Addition where
  | entry (l : Leaf)
  | element (c : Combinator) (l : Leaf)
  | nested (c : Combinator) (additions : List Addition)

namespace Addition

mutual

def leaves : Addition → List Leaf
  | .entry l => [l]
  | .element _ l => [l]
  | .nested _ additions => leavesAll additions

def leavesAll : List Addition → List Leaf
  | [] => []
  | a :: rest => a.leaves ++ leavesAll rest

end

theorem leavesAll_eq : ∀ additions : List Addition, leavesAll additions = additions.flatMap leaves
  | [] => rfl
  | a :: rest => by rw [leavesAll, leavesAll_eq rest, List.flatMap_cons]

theorem mem_leavesAll_of_nested {c : Combinator} {members additions : List Addition}
    (h : .nested c members ∈ additions) {l : Leaf} (hl : l ∈ leavesAll members) : l ∈ leavesAll additions := by
  rw [leavesAll_eq]
  exact List.mem_flatMap.mpr ⟨_, h, hl⟩

/-- What holds of additions if it holds of the groups among them holds of all additions. -/
@[elab_as_elim]
theorem groups_induction {motive : List Addition → Prop}
    (step : ∀ additions, (∀ c members, .nested c members ∈ additions → motive members) → motive additions)
    (additions : List Addition) : motive additions := by
  refine step additions fun c members hmem => ?_
  have hsize := List.sizeOf_lt_of_mem hmem
  exact groups_induction step members
termination_by sizeOf additions
decreasing_by
  simp only [nested.sizeOf_spec] at hsize
  omega

end Addition

namespace Filter

mutual

/-- The filter after an addition. -/
def perform (style : LikeStyle) (f : Filter) : Addition → Except BuildError Filter
  | .entry l => (l.fragment style).map (f.conjoin l.condition.key)
  | .element c l => (l.fragment style).map fun fragment => f.push c (.single l.condition.key fragment)
  | .nested c additions => do return f.graft c (← performAll style [] additions)

def performAll (style : LikeStyle) (f : Filter) : List Addition → Except BuildError Filter
  | [] => .ok f
  | a :: rest => do performAll style (← f.perform style a) rest

end

section Inversion

variable {style : LikeStyle} {f f' : Filter}

theorem perform_entry {l : Leaf} (h : f.perform style (.entry l) = .ok f') :
    ∃ fragment, l.fragment style = .ok fragment ∧ f' = f.conjoin l.condition.key fragment := by
  rw [perform, map_eq_ok] at h
  obtain ⟨fragment, hf, rfl⟩ := h
  exact ⟨fragment, hf, rfl⟩

theorem perform_element {c : Combinator} {l : Leaf} (h : f.perform style (.element c l) = .ok f') :
    ∃ fragment, l.fragment style = .ok fragment ∧ f' = f.push c (.single l.condition.key fragment) := by
  rw [perform, map_eq_ok] at h
  obtain ⟨fragment, hf, rfl⟩ := h
  exact ⟨fragment, hf, rfl⟩

theorem perform_nested {c : Combinator} {additions : List Addition}
    (h : f.perform style (.nested c additions) = .ok f') :
    ∃ nested, performAll style [] additions = .ok nested ∧ f' = f.graft c nested := by
  rw [perform, bind_eq_ok] at h
  obtain ⟨nested, hn, h⟩ := h
  cases h
  exact ⟨nested, hn, rfl⟩

theorem performAll_cons {a : Addition} {rest : List Addition} (h : f.performAll style (a :: rest) = .ok f') :
    ∃ f₁, f.perform style a = .ok f₁ ∧ f₁.performAll style rest = .ok f' := by
  rwa [performAll, bind_eq_ok] at h

theorem performAll_append (f : Filter) (xs ys : List Addition) :
    f.performAll style (xs ++ ys) = f.performAll style xs >>= fun f => f.performAll style ys := by
  induction xs generalizing f with
  | nil => rfl
  | cons a xs ih => simp only [List.cons_append, performAll, ih, bind_assoc]

end Inversion

end Filter

/-! ## Expressions -/

namespace Expr

mutual

/-- How a member of a group under `combinator` is added to the filter of the group. -/
def addition (combinator : Combinator) : Expr → Addition
  | .clause c => if c.markers.contains .and ∨ combinator = .and then .entry c.leaf else .element .or c.leaf
  | .group inner members => .nested combinator (additions inner members)

def additions (combinator : Combinator) : List Expr → List Addition
  | [] => []
  | e :: rest => e.addition combinator :: additions combinator rest

end

/-- How an expression that is joined by `outer` is added to the filter of a query. -/
def joined (outer : Combinator) : Expr → Addition
  | .clause c => .element outer c.leaf
  | .group inner members => .nested outer (additions inner members)

mutual

theorem leaves_addition (combinator : Combinator) : ∀ e : Expr, (e.addition combinator).leaves = e.leaves
  | .clause c => by
    rw [addition]
    split <;> rfl
  | .group inner members => by
    rw [addition, Addition.leaves, leavesAll_additions inner members]
    rfl

theorem leavesAll_additions (combinator : Combinator) : ∀ members : List Expr,
    Addition.leavesAll (additions combinator members) = leavesAll members
  | [] => rfl
  | e :: rest => by
    rw [additions, Addition.leavesAll, leaves_addition combinator e, leavesAll_additions combinator rest,
      leavesAll_cons]

end

theorem leaves_joined (outer : Combinator) (e : Expr) : (e.joined outer).leaves = e.leaves := by
  cases e with
  | clause c => rfl
  | group inner members =>
    rw [joined, Addition.leaves, leavesAll_additions]
    rfl

end Expr

namespace Filter

variable {style : LikeStyle} {f f' : Filter}

mutual

theorem addMember_eq_perform (combinator : Combinator) : ∀ (e : Expr) (f : Filter),
    addMember style combinator f e = f.perform style (e.addition combinator)
  | .clause c, f => by
    rw [addMember_clause_eq, Expr.addition]
    split <;> rfl
  | .group inner members, f => by
    rw [addMember, Expr.addition, perform, addMembers_eq_performAll inner members []]

theorem addMembers_eq_performAll (combinator : Combinator) : ∀ (members : List Expr) (f : Filter),
    addMembers style combinator f members = f.performAll style (Expr.additions combinator members)
  | [], _ => rfl
  | e :: rest, f => by
    rw [addMembers, Expr.additions, performAll, addMember_eq_perform combinator e f]
    exact bind_congr fun f₁ => addMembers_eq_performAll combinator rest f₁

end

theorem addExpr_eq_perform (outer : Combinator) (f : Filter) (e : Expr) :
    f.addExpr style outer e = f.perform style (e.joined outer) := by
  cases e with
  | clause c =>
    rw [addExpr_clause_eq]
    cases outer <;> rfl
  | group inner members => rw [addExpr, Expr.joined, perform, addMembers_eq_performAll]

end Filter

/-! ## Trees -/

/-- The additions of a part: of an array, the one of the expression that it reduces to. -/
def Part.additions : Part → List Addition
  | .leaf l => [.entry l]
  | .array join markers nodes =>
    ((Grouping.reduce markers nodes).toOption.join.map (Expr.joined join)).toList

def Tree.additions (count : CountStyle) (tree : Tree) : List Addition := (tree.parts count).flatMap Part.additions

theorem Part.leaves_additions {p : Part} {l : Leaf} (hl : l ∈ Addition.leavesAll p.additions) : l ∈ p.leaves := by
  cases p with
  | leaf l' => exact hl
  | array join markers nodes =>
    rw [additions] at hl
    cases hr : Grouping.reduce markers nodes with
    | error e =>
      rw [hr] at hl
      cases hl
    | ok member =>
      rw [Part.leaves_array join hr]
      rw [hr] at hl
      cases member with
      | none => cases hl
      | some e =>
        have hleaves : Addition.leavesAll [e.joined join] = e.leaves := by
          rw [Addition.leavesAll_eq, List.flatMap_singleton, Expr.leaves_joined]
        rw [Option.toList_some, Expr.leavesAll_singleton, ← hleaves]
        exact hl

/-- The conditions that are added are conditions of the tree. -/
theorem Tree.leaves_additions {tree : Tree} {count : CountStyle} {l : Leaf}
    (hl : l ∈ Addition.leavesAll (tree.additions count)) : ∃ p ∈ tree.parts count, l ∈ p.leaves := by
  rw [Addition.leavesAll_eq] at hl
  obtain ⟨a, ha, hl⟩ := List.mem_flatMap.mp hl
  obtain ⟨p, hp, ha⟩ := List.mem_flatMap.mp ha
  refine ⟨p, hp, Part.leaves_additions ?_⟩
  rw [Addition.leavesAll_eq]
  exact List.mem_flatMap.mpr ⟨a, ha, hl⟩

namespace Filter

variable {style : LikeStyle} {f f' : Filter}

theorem Takes.performAll {p : Part} (h : Takes style f p f') : f.performAll style p.additions = .ok f' := by
  cases h with
  | leaf hf => simp only [Part.additions, Filter.performAll, perform, hf]; rfl
  | array hr ha =>
    rw [addExpr_eq_perform] at ha
    rw [Part.additions, hr]
    simp only [Except.toOption, Option.join_some, Option.map_some, Option.toList_some, Filter.performAll, ha]
    rfl
  | nothing hr =>
    rw [Part.additions, hr]
    rfl

theorem TakesAll.performAll {ps : List Part} (h : TakesAll style f ps f') :
    f.performAll style (ps.flatMap Part.additions) = .ok f' := by
  induction h with
  | nil _ => rfl
  | cons hp _ ih =>
    rw [List.flatMap_cons, performAll_append, hp.performAll]
    exact ih

end Filter

/-- The additions of a tree make its filter. -/
theorem performAll_of_compile {dialect : Dialect} {tree : Tree} {q : Query} (h : compile dialect tree = .ok q) :
    Filter.performAll dialect.like [] (tree.additions dialect.count) = .ok q.filter :=
  (takesAll_of_compile h).performAll

end DocQuery
