import DocQuery.Proofs.Grouping.Leaves

/-!
# Adding expressions to a filter

The additions of `Filter.addMember` and `Filter.addExpr`, in terms of leaves: a clause adds the fragment of its leaf,
and a group grafts the filter of its members.
-/

namespace DocQuery.Filter

variable {style : LikeStyle} {f f' : Filter} {c : Clause}

/-- A clause of a group adds its leaf: among the entries if it is marked or if the group is joined by `AND`, and to the
alternatives otherwise. -/
theorem addMember_clause_eq (style : LikeStyle) (combinator : Combinator) (f : Filter) (c : Clause) :
    addMember style combinator f (.clause c) =
      f.apply style (if c.markers.contains .and ∨ combinator = .and then .root else .or) c.leaf.modifier
        c.leaf.condition := by
  simp only [addMember, applyMember, Modifiers.resolved_resolve]
  simp only [Marker.resolve]
  cases c.markers.contains .and <;> cases combinator <;> rfl

theorem addMember_clause {combinator : Combinator} (h : addMember style combinator f (.clause c) = .ok f') :
    ∃ fragment, c.leaf.fragment style = .ok fragment ∧
      f' = if c.markers.contains .and ∨ combinator = .and then f.conjoin c.leaf.condition.key fragment
        else f.push .or (.single c.leaf.condition.key fragment) := by
  rw [addMember_clause_eq, apply, map_eq_ok] at h
  obtain ⟨fragment, hf, rfl⟩ := h
  refine ⟨fragment, hf, ?_⟩
  split <;> rfl

theorem addMember_group {combinator inner : Combinator} {members : List Expr}
    (h : addMember style combinator f (.group inner members) = .ok f') :
    ∃ nested, addMembers style inner [] members = .ok nested ∧ f' = f.graft combinator nested := by
  rw [addMember, bind_eq_ok] at h
  obtain ⟨nested, hn, h⟩ := h
  cases h
  exact ⟨nested, hn, rfl⟩

theorem addMembers_cons {combinator : Combinator} {e : Expr} {rest : List Expr}
    (h : addMembers style combinator f (e :: rest) = .ok f') :
    ∃ f₁, addMember style combinator f e = .ok f₁ ∧ addMembers style combinator f₁ rest = .ok f' := by
  rwa [addMembers, bind_eq_ok] at h

theorem addMembers_append (combinator : Combinator) (f : Filter) (xs ys : List Expr) :
    addMembers style combinator f (xs ++ ys) =
      addMembers style combinator f xs >>= fun f => addMembers style combinator f ys := by
  induction xs generalizing f with
  | nil => rfl
  | cons x xs ih => simp only [List.cons_append, addMembers, ih, bind_assoc]

/-- A clause alone stands under the combinator that joins it, marked or not. -/
theorem addExpr_clause_eq (style : LikeStyle) (outer : Combinator) (f : Filter) (c : Clause) :
    addExpr style outer f (.clause c) = f.apply style outer.family c.leaf.modifier c.leaf.condition := by
  rw [addExpr, Modifiers.resolved_resolve]
  rfl

theorem addExpr_clause {outer : Combinator} (h : addExpr style outer f (.clause c) = .ok f') :
    ∃ fragment, c.leaf.fragment style = .ok fragment ∧ f' = f.push outer (.single c.leaf.condition.key fragment) := by
  rw [addExpr_clause_eq, apply, map_eq_ok] at h
  obtain ⟨fragment, hf, rfl⟩ := h
  exact ⟨fragment, hf, by cases outer <;> rfl⟩

/-- A group is joined to a filter as it is to the group around it. -/
theorem addExpr_group_eq (style : LikeStyle) (outer inner : Combinator) (f : Filter) (members : List Expr) :
    addExpr style outer f (.group inner members) = addMember style outer f (.group inner members) := by
  rw [addExpr, addMember]

theorem addExpr_group {outer inner : Combinator} {members : List Expr}
    (h : addExpr style outer f (.group inner members) = .ok f') :
    ∃ nested, addMembers style inner [] members = .ok nested ∧ f' = f.graft outer nested := by
  rw [addExpr_group_eq] at h
  exact addMember_group h

/-- Whatever is added, the filter is not empty afterwards. -/
theorem graft_ne_nil {combinator : Combinator} {nested : Filter} (h : nested ≠ []) :
    f.graft combinator nested ≠ [] := by
  rw [graft_of_ne_nil f combinator h]
  exact push_ne_nil f combinator _

mutual

theorem addMember_ne_nil : ∀ {e : Expr} {combinator : Combinator} {f f' : Filter}, e.Populated →
    addMember style combinator f e = .ok f' → f' ≠ []
  | .clause _, _, f, _, _, h => by
    obtain ⟨fragment, _, rfl⟩ := addMember_clause h
    split
    · exact conjoin_ne_nil f _ _
    · exact push_ne_nil f _ _
  | .group _ members, _, _, _, hp, h => by
    obtain ⟨nested, hn, rfl⟩ := addMember_group h
    exact graft_ne_nil (addMembers_ne_nil hp.2 (.inr hp.1) hn)

theorem addMembers_ne_nil : ∀ {members : List Expr} {combinator : Combinator} {f f' : Filter},
    Expr.AllPopulated members → f ≠ [] ∨ members ≠ [] → addMembers style combinator f members = .ok f' → f' ≠ []
  | [], _, _, _, _, hne, h => by
    cases h
    exact hne.resolve_right (by simp)
  | _ :: _, _, _, _, hp, _, h => by
    obtain ⟨f₁, h₁, h₂⟩ := addMembers_cons h
    exact addMembers_ne_nil hp.2 (.inl (addMember_ne_nil hp.1 h₁)) h₂

end

end DocQuery.Filter
