import DocQuery.Filter.Basic
import DocQuery.Proofs.Fields

/-!
# What one addition does to a filter

Every addition to a filter is one of a few edits of its list of entries. `push_cases` and `conjoin_cases` say which,
for arbitrary keys; everything else about additions is derived from them.

A filter is *regular* (`Regular`) if its keys are unique and its two connectives, where they are there, hold a list
of at least one filter. Additions under attributes keep a filter regular (`Regular.push`, `Regular.conjoin`).
-/

namespace DocQuery

/-! ## The keys of the connectives -/

/-- The connective that a key names. -/
def Combinator.ofOperator? (key : String) : Option Combinator :=
  if key = "$and" then some .and else if key = "$or" then some .or else none

@[simp] theorem Combinator.ofOperator?_operator (c : Combinator) : ofOperator? c.operator = some c := by
  cases c <;> simp [ofOperator?, operator]

theorem Combinator.operator_of_ofOperator? {key : String} {c : Combinator} (h : ofOperator? key = some c) :
    c.operator = key := by
  unfold ofOperator? at h
  split at h
  · rename_i hkey
    cases h
    exact hkey.symm
  · split at h
    · rename_i hkey
      cases h
      exact hkey.symm
    · cases h

/-- The key of an attribute is not that of a connective. -/
theorem Combinator.ne_operator {key : String} (h : ofOperator? key = none) (c : Combinator) : key ≠ c.operator := by
  rintro rfl
  simp at h

namespace Filter

variable {f : Filter} {key : String} {fragment : Json}

/-! ## Edits -/

/-- A push opens the connective, appends to its list, or takes the place of an entry that is no list. -/
theorem push_cases (f : Filter) (c : Combinator) (entry : Json) :
    (f.find? c.operator = none ∧ f.push c entry = f ++ [(c.operator, .arr [entry])]) ∨
    (∃ before items after, f.find? c.operator = some (.arr items) ∧ f = before ++ (c.operator, .arr items) :: after ∧
      f.push c entry = before ++ (c.operator, .arr (items ++ [entry])) :: after) ∨
    (∃ before other after, f.find? c.operator = some other ∧ (∀ items, other ≠ .arr items) ∧
      f = before ++ (c.operator, other) :: after ∧
      f.push c entry = before ++ (c.operator, .arr [entry]) :: after) := by
  cases h : f.find? c.operator with
  | none => exact .inl ⟨rfl, by simp [push, h, Fields.insert_of_find?_none h]⟩
  | some other =>
    obtain ⟨before, after, hf, hins⟩ := Fields.exists_split_of_find? h
    cases other with
    | arr items => exact .inr (.inl ⟨before, items, after, rfl, hf, by simp [push, h, hins]⟩)
    | _ => exact .inr (.inr ⟨before, _, after, rfl, by simp, hf, by simp [push, h, hins]⟩)

/-- The filters under a connective. -/
def elements (c : Combinator) (f : Filter) : List Json :=
  match f.find? c.operator with
  | some (.arr items) => items
  | _ => []

theorem elements_push (f : Filter) (c : Combinator) (entry : Json) :
    (f.push c entry).elements c = f.elements c ++ [entry] := by
  unfold elements
  cases hfind : f.find? c.operator with
  | none => simp [push, hfind]
  | some value => cases value <;> simp [push, hfind]

/-- A condition among the entries opens its key, shares the entry of its key, or goes under `$and`. -/
theorem conjoin_cases (f : Filter) (key : String) (fragment : Json) :
    (f.find? key = none ∧ f.conjoin key fragment = f ++ [(key, fragment)]) ∨
    (∃ before old after new, f.find? key = some (.obj old) ∧ fragment = .obj new ∧ areDisjoint old new = true ∧
      f = before ++ (key, .obj old) :: after ∧
      f.conjoin key fragment = before ++ (key, .obj (Object.merge old new)) :: after) ∨
    (∃ existing, f.find? key = some existing ∧ shared? existing fragment = none ∧
      f.conjoin key fragment = f.push .and (.single key fragment)) := by
  cases h : f.find? key with
  | none => exact .inl ⟨rfl, by simp [conjoin, h, Fields.insert_of_find?_none h]⟩
  | some existing =>
    cases hs : shared? existing fragment with
    | none => exact .inr (.inr ⟨existing, rfl, hs, by simp [conjoin, h, hs]⟩)
    | some entry =>
      obtain ⟨before, after, hf, hins⟩ := Fields.exists_split_of_find? h
      unfold shared? at hs
      split at hs
      · rename_i old new
        split at hs
        · rename_i hd
          cases hs
          exact .inr (.inl ⟨before, old, after, new, rfl, rfl, hd, hf, by simp [conjoin, h, shared?, hd, hins]⟩)
        · cases hs
      · cases hs

/-- A filter that says something is pushed as a whole. -/
theorem graft_of_ne_nil (f : Filter) (c : Combinator) {nested : Filter} (h : nested ≠ []) :
    f.graft c nested = f.push c (.obj nested) :=
  if_neg (by simpa using h)

theorem areDisjoint_iff {old new : Object} : areDisjoint old new = true ↔
    old.isOperators = true ∧ new.isOperators = true ∧ ∀ k ∈ new.keys, k ∉ old.keys := by
  simp only [areDisjoint, Bool.and_eq_true, Bool.not_eq_true', List.any_eq_false, and_assoc, Fields.contains,
    Option.isSome_iff_ne_none, ne_eq, Decidable.not_not, Fields.find?_eq_none_iff]

theorem find?_eq_none_of_areDisjoint {old new : Object} (hd : areDisjoint old new = true) :
    ∀ k ∈ new.keys, old.find? k = none := by
  intro k hk
  exact Fields.find?_eq_none_iff.mpr ((areDisjoint_iff.mp hd).2.2 k hk)

/-- The operators of an entry stand in front of those that come to share it. -/
theorem merge_eq_append_merge {old new : Object} (hd : areDisjoint old new = true) :
    Object.merge old new = old ++ Object.merge [] new := by
  have happend : Object.merge (old ++ []) new = old ++ Object.merge [] new :=
    Object.merge_append (find?_eq_none_of_areDisjoint hd)
  rwa [List.append_nil] at happend

/-- Operators that share an entry stand there one after the other. -/
theorem merge_eq_append {old new : Object} (hd : areDisjoint old new = true) (hnodup : new.keys.Nodup) :
    Object.merge old new = old ++ new :=
  Object.merge_of_disjoint hnodup (find?_eq_none_of_areDisjoint hd)

theorem isOperators_of_areDisjoint {old new : Object} (hd : areDisjoint old new = true) :
    old.isOperators = true ∧ new.isOperators = true :=
  ⟨(areDisjoint_iff.mp hd).1, (areDisjoint_iff.mp hd).2.1⟩

theorem isOperators_iff {o : Object} : o.isOperators = true ↔ o.keys ≠ [] ∧ ∀ k ∈ o.keys, isOperatorName k = true := by
  simp [Object.isOperators, Fields.keys]

/-- Two objects of operators that are merged are one. -/
theorem isOperators_merge {old new : Object} (ho : old.isOperators = true) (hn : new.isOperators = true) :
    (Object.merge old new).isOperators = true := by
  rw [isOperators_iff] at ho hn ⊢
  obtain ⟨k, hk⟩ := List.exists_mem_of_ne_nil _ ho.1
  refine ⟨List.ne_nil_of_mem (Object.mem_keys_merge.mpr (.inl hk)), fun k hk => ?_⟩
  exact (Object.mem_keys_merge.mp hk).elim (ho.2 k) (hn.2 k)

/-! ## Regular filters -/

/-- Unique keys, and under each connective a list of at least one filter. -/
structure Regular (f : Filter) : Prop where
  nodup : f.keys.Nodup
  connective : ∀ c : Combinator, ∀ value, (c.operator, value) ∈ f → ∃ first rest, value = .arr (first :: rest)

theorem Regular.empty : Regular [] := ⟨by simp [Fields.keys], by simp⟩

/-- A push on a regular filter opens the connective or appends to its list. -/
theorem Regular.push_cases (h : f.Regular) (c : Combinator) (entry : Json) :
    (f.find? c.operator = none ∧ f.push c entry = f ++ [(c.operator, .arr [entry])]) ∨
    (∃ before first rest after, f = before ++ (c.operator, .arr (first :: rest)) :: after ∧
      f.push c entry = before ++ (c.operator, .arr (first :: rest ++ [entry])) :: after) := by
  rcases Filter.push_cases f c entry with h₁ | ⟨before, items, after, _, hf, hp⟩ | ⟨_, other, _, hfind, hother, _⟩
  · exact .inl h₁
  · obtain ⟨first, rest, hitems⟩ := h.connective c (.arr items) (by rw [hf]; simp)
    cases hitems
    exact .inr ⟨before, first, rest, after, hf, hp⟩
  · obtain ⟨first, rest, rfl⟩ := h.connective c other (Fields.mem_of_find? hfind)
    exact absurd rfl (hother _)

/-- Appending a field on a new key. -/
theorem Regular.append (h : f.Regular) {value : Json} (hfind : f.find? key = none)
    (hc : ∀ c : Combinator, key = c.operator → ∃ first rest, value = .arr (first :: rest)) :
    Regular (f ++ [(key, value)]) := by
  refine ⟨?_, fun c v hv => ?_⟩
  · have hnot := Fields.find?_eq_none_iff.mp hfind
    simp only [Fields.keys, List.map_append, List.nodup_append] at hnot ⊢
    refine ⟨h.nodup, by simp, fun a ha b hb => ?_⟩
    simp only [List.map_cons, List.map_nil, List.mem_singleton] at hb
    subst hb
    exact fun e => hnot (e ▸ ha)
  · rcases List.mem_append.mp hv with hv | hv
    · exact h.connective c v hv
    · simp only [List.mem_singleton, Prod.mk.injEq] at hv
      obtain ⟨rfl, rfl⟩ := hv
      exact hc c rfl

/-- Replacing the value of a field. -/
theorem Regular.replace {before after : Filter} {old value : Json} (h : Regular (before ++ (key, old) :: after))
    (hc : ∀ c : Combinator, key = c.operator → ∃ first rest, value = .arr (first :: rest)) :
    Regular (before ++ (key, value) :: after) := by
  refine ⟨by simpa [Fields.keys] using h.nodup, fun c v hv => ?_⟩
  simp only [List.mem_append, List.mem_cons, Prod.mk.injEq] at hv
  rcases hv with hv | ⟨hk, rfl⟩ | hv
  · exact h.connective c v (by simp [hv])
  · exact hc c hk.symm
  · exact h.connective c v (by simp [hv])

theorem Regular.push (h : f.Regular) (c : Combinator) (entry : Json) : Regular (f.push c entry) := by
  rcases h.push_cases c entry with ⟨hfind, hp⟩ | ⟨before, first, rest, after, rfl, hp⟩
  · rw [hp]
    exact h.append hfind fun _ _ => ⟨entry, [], rfl⟩
  · rw [hp]
    exact h.replace fun _ _ => ⟨first, rest ++ [entry], by simp⟩

theorem Regular.graft (h : f.Regular) (c : Combinator) (nested : Filter) : Regular (f.graft c nested) := by
  unfold Filter.graft
  split
  · exact h
  · exact h.push c _

/-- A condition on an attribute. -/
theorem Regular.conjoin (h : f.Regular) (hkey : Combinator.ofOperator? key = none) (fragment : Json) :
    Regular (f.conjoin key fragment) := by
  rcases conjoin_cases f key fragment with ⟨hfind, hj⟩ | ⟨_, _, _, _, _, rfl, _, rfl, hj⟩ | ⟨_, _, _, hj⟩
  · rw [hj]
    exact h.append hfind fun c hc => absurd hc (Combinator.ne_operator hkey c)
  · rw [hj]
    exact h.replace fun c hc => absurd hc (Combinator.ne_operator hkey c)
  · rw [hj]
    exact h.push .and _

/-! ## Something is there after an addition -/

theorem push_ne_nil (f : Filter) (c : Combinator) (entry : Json) : f.push c entry ≠ [] := by
  rcases push_cases f c entry with ⟨_, hp⟩ | ⟨_, _, _, _, _, hp⟩ | ⟨_, _, _, _, _, _, hp⟩ <;> simp [hp]

theorem conjoin_ne_nil (f : Filter) (key : String) (fragment : Json) : f.conjoin key fragment ≠ [] := by
  rcases conjoin_cases f key fragment with ⟨_, hj⟩ | ⟨_, _, _, _, _, _, _, _, hj⟩ | ⟨_, _, _, hj⟩
  · simp [hj]
  · simp [hj]
  · rw [hj]
    exact push_ne_nil f .and _

end Filter

end DocQuery
