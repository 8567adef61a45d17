import DocQuery.Proofs.Reading

/-!
# When a filter grows

The items of a filter are its conditions at the surface: the elements of the two connectives, the operators of the
entries that hold operators, and all other entries as a whole. A call that emits a condition (`Emission`) keeps every
item, with one exception: pushing to a connective whose key is taken by something else than a list puts a list in its
place.

`items_persist_iff` says that for every query that operations can reach, with arbitrary keys. The key of a connective
is only ever taken by a condition of that key at the root, so queries over attributes keep all their items.
-/

namespace DocQuery

/-! ## Items -/

/-- A condition at the surface of a filter. -/
inductive Item where
  | entry (key : String) (value : Json)
  | operator (key operator : String) (value : Json)
  | element (c : Combinator) (value : Json)
deriving DecidableEq, Repr

/-- The key of the entry that holds the item. -/
def Item.key : Item → String
  | .entry key _ => key
  | .operator key _ _ => key
  | .element c _ => c.operator

namespace Filter

/-- The items of one entry. -/
def itemsAt (key : String) : Json → List Item
  | .arr items =>
    match Combinator.ofOperator? key with
    | some c => items.map (.element c)
    | none => [.entry key (.arr items)]
  | .obj fields =>
    if Object.isOperators fields then fields.map fun p => .operator key p.1 p.2 else [.entry key (.obj fields)]
  | other => [.entry key other]

def items (f : Filter) : List Item := f.flatMap fun p => itemsAt p.1 p.2

variable {f : Filter} {key : String}

theorem itemsAt_operator (c : Combinator) (items : List Json) :
    itemsAt c.operator (.arr items) = items.map (.element c) := by
  simp [itemsAt]

/-- A connective that is not a list has an item, and no elements. -/
theorem itemsAt_of_not_list (key : String) {value : Json} (h : ∀ items, value ≠ .arr items) :
    itemsAt key value ≠ [] ∧ ∀ c x, Item.element c x ∉ itemsAt key value := by
  cases value with
  | arr items => exact absurd rfl (h items)
  | obj fields =>
    simp only [itemsAt]
    split
    · rename_i hops
      refine ⟨fun hnil => ?_, by simp⟩
      rw [List.map_eq_nil_iff.mp hnil] at hops
      simp [Object.isOperators] at hops
    · simp
  | _ => simp [itemsAt]

theorem key_of_mem_itemsAt {value : Json} {i : Item} (h : i ∈ itemsAt key value) : i.key = key := by
  unfold itemsAt at h
  split at h
  · split at h
    · rename_i c hc
      obtain ⟨x, _, rfl⟩ := List.mem_map.mp h
      exact Combinator.operator_of_ofOperator? hc
    · cases List.mem_singleton.mp h
      rfl
  · split at h
    · obtain ⟨p, _, rfl⟩ := List.mem_map.mp h
      rfl
    · cases List.mem_singleton.mp h
      rfl
  · cases List.mem_singleton.mp h
    rfl

theorem items_append (f g : Filter) : items (f ++ g) = items f ++ items g := List.flatMap_append

theorem items_split (before after : Filter) (key : String) (value : Json) :
    items (before ++ (key, value) :: after) = items before ++ (itemsAt key value ++ items after) := by
  rw [items_append, items, items, List.flatMap_cons]
  rfl

/-- Items stay if those of the one entry that changes do. -/
theorem items_replace {before after : Filter} {old value : Json} (h : ∀ i ∈ itemsAt key old, i ∈ itemsAt key value) :
    ∀ i ∈ items (before ++ (key, old) :: after), i ∈ items (before ++ (key, value) :: after) := by
  intro i hi
  rw [items_split] at hi ⊢
  simp only [List.mem_append] at hi ⊢
  exact hi.imp_right (Or.imp_left (h i))

/-- An item of an entry whose key is unique is an item of no other entry. -/
theorem mem_itemsAt_of_nodup {before after : Filter} {value : Json} {i : Item}
    (hnodup : (before ++ (key, value) :: after).keys.Nodup) (hkey : i.key = key)
    (hi : i ∈ items (before ++ (key, value) :: after)) : i ∈ itemsAt key value := by
  obtain ⟨hbefore, hafter⟩ := Fields.not_mem_keys_of_nodup hnodup
  have habsent : ∀ g : Filter, key ∉ g.keys → i ∉ items g := by
    intro g hg hi
    obtain ⟨p, hp, hi⟩ := List.mem_flatMap.mp hi
    exact hg (hkey.symm.trans (key_of_mem_itemsAt hi) ▸ Fields.mem_keys hp)
  rw [items_split, List.mem_append, List.mem_append] at hi
  exact (hi.resolve_left (habsent before hbefore)).resolve_right (habsent after hafter)

/-! ## Additions -/

/-- The key of the connective is taken by something else than a list. -/
def Displaced (f : Filter) (c : Combinator) : Prop :=
  ∃ value, f.find? c.operator = some value ∧ ∀ items, value ≠ .arr items

/-- A push keeps every item exactly if there is nothing in the way of its list. -/
theorem items_push (hnodup : f.keys.Nodup) (c : Combinator) (entry : Json) :
    (∀ i ∈ f.items, i ∈ (f.push c entry).items) ↔ ¬ f.Displaced c := by
  rcases push_cases f c entry with ⟨hfind, hp⟩ | ⟨before, items, after, hfind, rfl, hp⟩ |
    ⟨before, other, after, hfind, hother, rfl, hp⟩
  · refine iff_of_true (fun i hi => ?_) fun ⟨value, hvalue, _⟩ => ?_
    · rw [hp, items_append]
      exact List.mem_append_left _ hi
    · rw [hfind] at hvalue
      cases hvalue
  · refine iff_of_true ?_ fun ⟨value, hvalue, hlist⟩ => ?_
    · rw [hp]
      refine items_replace fun i hi => ?_
      rw [itemsAt_operator] at hi ⊢
      rw [List.map_append]
      exact List.mem_append_left _ hi
    · rw [hfind] at hvalue
      cases hvalue
      exact hlist items rfl
  · refine iff_of_false (fun hall => ?_) (not_not_intro ⟨other, hfind, hother⟩)
    -- An item of the entry that gives way is found nowhere else.
    obtain ⟨hne, hnone⟩ := itemsAt_of_not_list c.operator hother
    obtain ⟨i, hi⟩ := List.exists_mem_of_ne_nil _ hne
    have hafter := hall i (by rw [items_split]; simp [hi])
    rw [hp] at hafter
    have hnodup' : (before ++ (c.operator, Json.arr [entry]) :: after).keys.Nodup := by
      simpa [Fields.keys] using hnodup
    have hmem := mem_itemsAt_of_nodup hnodup' (key_of_mem_itemsAt hi) hafter
    rw [itemsAt_operator, List.map_singleton, List.mem_singleton] at hmem
    exact hnone c entry (hmem ▸ hi)

/-- The connective that a condition is pushed to. At the root that is `$and`, and only if there is an entry that it
cannot share. -/
def target? (f : Filter) (family : Family) (key : String) (fragment : Json) : Option Combinator :=
  match family with
  | .or => some .or
  | .and => some .and
  | .root => (f.find? key).bind fun existing => if (shared? existing fragment).isSome then none else some .and

theorem items_conjoin (hnodup : f.keys.Nodup) (key : String) (fragment : Json) :
    (∀ i ∈ f.items, i ∈ (f.conjoin key fragment).items) ↔
      ∀ c, f.target? .root key fragment = some c → ¬ f.Displaced c := by
  rcases conjoin_cases f key fragment with ⟨hfind, hj⟩ | ⟨before, old, after, new, hfind, rfl, hd, rfl, hj⟩ |
    ⟨existing, hfind, hshared, hj⟩
  · refine iff_of_true (fun i hi => ?_) (by simp [target?, hfind])
    rw [hj, items_append]
    exact List.mem_append_left _ hi
  · refine iff_of_true ?_ (by simp [target?, hfind, shared?, hd])
    rw [hj]
    refine items_replace fun i hi => ?_
    obtain ⟨ho, hn⟩ := isOperators_of_areDisjoint hd
    simp only [itemsAt, ho, isOperators_merge ho hn, ↓reduceIte] at hi ⊢
    obtain ⟨p, hp, rfl⟩ := List.mem_map.mp hi
    refine List.mem_map_of_mem (Object.mem_merge_of_not_mem_keys hp ?_)
    intro hk
    have hnone := find?_eq_none_of_areDisjoint hd p.1 hk
    exact Fields.find?_eq_none_iff.mp hnone (Fields.mem_keys hp)
  · rw [hj, items_push hnodup]
    simp [target?, hfind, hshared]

theorem items_add (hnodup : f.keys.Nodup) (family : Family) (key : String) (fragment : Json) :
    (∀ i ∈ f.items, i ∈ (f.add family key fragment).items) ↔
      ∀ c, f.target? family key fragment = some c → ¬ f.Displaced c := by
  cases family with
  | root => exact items_conjoin hnodup key fragment
  | or => simpa [add, target?] using items_push hnodup .or _
  | and => simpa [add, target?] using items_push hnodup .and _

theorem items_graft (hnodup : f.keys.Nodup) (c : Combinator) (nested : Filter) :
    (∀ i ∈ f.items, i ∈ (f.graft c nested).items) ↔ (nested ≠ [] → ¬ f.Displaced c) := by
  unfold graft
  cases nested with
  | nil => simp
  | cons p rest => simpa using items_push hnodup c _

theorem nodup_keys_push (hnodup : f.keys.Nodup) (c : Combinator) (entry : Json) : (f.push c entry).keys.Nodup := by
  unfold push
  split <;> exact Fields.nodup_keys_insert _ _ hnodup

theorem nodup_keys_add (hnodup : f.keys.Nodup) (family : Family) (key : String) (fragment : Json) :
    (f.add family key fragment).keys.Nodup := by
  cases family with
  | root =>
    simp only [add, conjoin]
    split
    · exact Fields.nodup_keys_insert _ _ hnodup
    · split
      · exact Fields.nodup_keys_insert _ _ hnodup
      · exact nodup_keys_push hnodup _ _
  | or => exact nodup_keys_push hnodup _ _
  | and => exact nodup_keys_push hnodup _ _

theorem Regular.add (h : f.Regular) {family : Family} {key : String}
    (hkey : family = .root → Combinator.ofOperator? key = none) (fragment : Json) :
    (f.add family key fragment).Regular := by
  cases family with
  | root => exact h.conjoin (hkey rfl) fragment
  | or => exact h.push _ _
  | and => exact h.push _ _

theorem Regular.not_displaced (h : f.Regular) (c : Combinator) : ¬ f.Displaced c := by
  rintro ⟨value, hfind, hlist⟩
  obtain ⟨first, rest, rfl⟩ := h.connective c value (Fields.mem_of_find? hfind)
  exact hlist _ rfl

end Filter

/-! ## Queries -/

/-- A call that emits a condition or a whole filter. -/
inductive Emission where
  | apply (family : Family) (modifier : Modifier) (c : Condition)
  | graft (c : Combinator) (nested : Filter)

namespace Query

variable {allowed : String → Prop} {q q' : Query}

def emit (q : Query) : Emission → Except BuildError Query
  | .apply family modifier c => q.apply family modifier c
  | .graft c nested => .ok (q.graft c nested)

/-- The connective that a call pushes to. -/
def target? (q : Query) : Emission → Option Combinator
  | .apply family modifier c =>
    match c.fragment q.dialect.like modifier with
    | .ok fragment => q.filter.target? family c.key fragment
    | .error _ => none
  | .graft c nested => if nested.isEmpty then none else some c

/-- One operation, with allowed keys only where a condition goes to the root. -/
inductive Step (allowed : String → Prop) (q : Query) : Query → Prop
  | emit {call : Emission} {q' : Query} (hroot : ∀ modifier c, call = .apply .root modifier c → allowed c.key)
      (h : q.emit call = .ok q') : Step allowed q q'
  | countBy (attr : String) (h : allowed attr) : Step allowed q (q.countBy attr)
  | countRows : Step allowed q q.countRows
  | setKind (kind : StatementKind) : Step allowed q (q.setKind kind)
  | select (fields : List String) : Step allowed q (q.select fields)
  | setCollection (collection : String) : Step allowed q (q.setCollection collection)
  | delete : Step allowed q q.delete
  | setLimit (limit : Nat) : Step allowed q (q.setLimit limit)
  | setSkip (skip : Nat) : Step allowed q (q.setSkip skip)
  | insert (values : Object) : Step allowed q (q.insert values)
  | update (values : Object) : Step allowed q (q.update values)
  | sort {attr : String} {direction : Json} {q' : Query} (h : q.sort attr direction = .ok q') : Step allowed q q'
  | distinct {attributes : List String} {q' : Query} (h : q.distinct attributes = .ok q') : Step allowed q q'
  | groupBy {attributes : List String} {q' : Query} (h : q.groupBy attributes = .ok q') : Step allowed q q'

/-- The queries that operations make of an empty one. -/
inductive Reachable (allowed : String → Prop) : Query → Prop
  | empty (dialect : Dialect) : Reachable allowed (.empty dialect)
  | step {q q' : Query} (h : Reachable allowed q) (hs : Step allowed q q') : Reachable allowed q'

theorem filter_emit {call : Emission} (h : q.emit call = .ok q') :
    (∃ family modifier c fragment, call = .apply family modifier c ∧
      c.fragment q.dialect.like modifier = .ok fragment ∧ q'.filter = q.filter.add family c.key fragment) ∨
    (∃ c nested, call = .graft c nested ∧ q'.filter = q.filter.graft c nested) := by
  cases call with
  | apply family modifier c =>
    obtain ⟨fragment, hf, rfl⟩ := apply_eq_ok h
    exact .inl ⟨family, modifier, c, fragment, rfl, hf, rfl⟩
  | graft c nested =>
    cases h
    exact .inr ⟨c, nested, rfl, rfl⟩

/-- What an operation can do to the filter. -/
theorem Step.filter_cases (h : Step allowed q q') :
    q'.filter = q.filter ∨
    (∃ family key fragment, (family = .root → allowed key) ∧ q'.filter = q.filter.add family key fragment) ∨
    (∃ c nested, q'.filter = q.filter.graft c nested) := by
  cases h with
  | emit hroot h =>
    rcases filter_emit h with ⟨family, modifier, c, fragment, rfl, _, hf⟩ | ⟨c, nested, _, hf⟩
    · exact .inr (.inl ⟨family, c.key, fragment, fun e => hroot modifier c (by rw [e]), hf⟩)
    · exact .inr (.inr ⟨c, nested, hf⟩)
  | countBy attr hattr =>
    unfold Query.countBy Query.setKind
    cases hcount : q.dialect.count with
    | pipeline => exact .inl (by simp only [hcount])
    | existence => exact .inr (.inl ⟨.root, attr, _, fun _ => hattr, by simp only [hcount]; rfl⟩)
  | sort h => exact .inl (sort_frame h).2
  | distinct h => exact .inl (distinct_frame h).2
  | groupBy h => exact .inl (groupBy_frame h).2
  | _ => exact .inl rfl

theorem Reachable.nodup_keys (h : q.Reachable allowed) : q.filter.keys.Nodup := by
  induction h with
  | empty dialect => simp [Query.empty, Fields.keys]
  | step _ hs ih =>
    rcases hs.filter_cases with hf | ⟨family, key, fragment, _, hf⟩ | ⟨c, nested, hf⟩
    · rwa [hf]
    · rw [hf]
      exact Filter.nodup_keys_add ih family key fragment
    · rw [hf, Filter.graft]
      split
      · exact ih
      · exact Filter.nodup_keys_push ih c _

/-- As long as only attributes go to the root, connectives are lists. -/
theorem Reachable.regular (hallowed : ∀ key, allowed key → Combinator.ofOperator? key = none)
    (h : q.Reachable allowed) : q.filter.Regular := by
  induction h with
  | empty dialect => exact .empty
  | step _ hs ih =>
    rcases hs.filter_cases with hf | ⟨family, key, fragment, hkey, hf⟩ | ⟨c, nested, hf⟩
    · rwa [hf]
    · rw [hf]
      exact ih.add (fun e => hallowed key (hkey e)) fragment
    · rw [hf, Filter.graft]
      split
      · exact ih
      · exact ih.push c _

/-- **The filter only grows, unless a connective is displaced.** Whatever was done before, a call that emits a
condition keeps every item of the filter if and only if the connective that it pushes to, if any, is not taken by
something else than a list; and that never happens if only attributes have been put at the root. -/
theorem items_persist_iff {call : Emission} (hq : q.Reachable allowed) (h : q.emit call = .ok q') :
    ((∀ i ∈ q.filter.items, i ∈ q'.filter.items) ↔ ∀ c, q.target? call = some c → ¬ q.filter.Displaced c) ∧
      ((∀ key, allowed key → Combinator.ofOperator? key = none) → ∀ i ∈ q.filter.items, i ∈ q'.filter.items) := by
  have hiff : (∀ i ∈ q.filter.items, i ∈ q'.filter.items) ↔ ∀ c, q.target? call = some c → ¬ q.filter.Displaced c := by
    rcases filter_emit h with ⟨family, modifier, c, fragment, rfl, hfragment, hf⟩ | ⟨c, nested, rfl, hf⟩
    · rw [hf, Filter.items_add hq.nodup_keys, target?, hfragment]
    · rw [hf, Filter.items_graft hq.nodup_keys, target?]
      cases nested <;> simp
  refine ⟨hiff, fun hallowed => hiff.mpr ?_⟩
  intro c _
  exact (hq.regular hallowed).not_displaced c

/-- A list of alternatives takes the place of a condition on `$or`. -/
theorem items_persist_iff_displaced :
    ∃ q q' : Query, q.Reachable (fun _ => True) ∧ q.emit (.apply .or .plain ⟨"a", none, .int 1⟩) = .ok q' ∧
      q.filter.Displaced .or ∧ ¬ ∀ i ∈ q.filter.items, i ∈ q'.filter.items := by
  let q : Query := { filter := [("$or", .int 5)] }
  let q' : Query := { filter := [("$or", .arr [.single "a" (.int 1)])] }
  have hfirst : (Query.empty {}).emit (.apply .root .plain ⟨"$or", none, .int 5⟩) = .ok q := rfl
  have hq : q.Reachable (fun _ => True) := .step (.empty {}) (.emit (fun _ _ _ => trivial) hfirst)
  have h : q.emit (.apply .or .plain ⟨"a", none, .int 1⟩) = .ok q' := rfl
  have hd : q.filter.Displaced .or := ⟨.int 5, rfl, by simp [Json.int]⟩
  exact ⟨q, q', hq, h, hd, fun hall => (items_persist_iff hq h).1.mp hall .or rfl hd⟩

end Query

end DocQuery
