import DocQuery.Proofs.Filter.Additions
import DocQuery.Proofs.Outline.Statements

/-!
# The strings of a tree

A string occurs in a tree if it is the payload of a token, or stands somewhere inside of one as a value or as a key. The
fragment of a condition has no other strings than the condition, but for the names of operators and for the pattern of a
`LIKE` (`Leaf.fragment_cases`); and the conditions of a tree have no other strings than the tree, but for `$exists`
(`Tree.strings_leaf`). So a string that occurs nowhere in a tree does not reach its filter by accident.
-/

namespace DocQuery

/-! ## Values -/

namespace Json

mutual

/-- The strings of a value at any depth, keys included. -/
def strings : Json → List String
  | .str s => [s]
  | .arr items => stringsItems items
  | .obj fields => stringsFields fields
  | .null => []
  | .bool _ => []
  | .num _ => []

def stringsItems : List Json → List String
  | [] => []
  | item :: rest => item.strings ++ stringsItems rest

def stringsFields : List (String × Json) → List String
  | [] => []
  | (key, value) :: rest => key :: value.strings ++ stringsFields rest

end

variable {s : String}

theorem mem_stringsItems {items : List Json} : s ∈ stringsItems items ↔ ∃ item ∈ items, s ∈ item.strings := by
  induction items with
  | nil => simp [stringsItems]
  | cons item rest ih => simp [stringsItems, ih]

theorem mem_stringsFields {fields : List (String × Json)} :
    s ∈ stringsFields fields ↔ ∃ p ∈ fields, s = p.1 ∨ s ∈ p.2.strings := by
  induction fields with
  | nil => simp [stringsFields]
  | cons p rest ih =>
    obtain ⟨key, value⟩ := p
    simp [stringsFields, ih, or_assoc]

theorem mem_stringsFields_of_mem_keys {fields : List (String × Json)} (h : s ∈ Fields.keys fields) :
    s ∈ stringsFields fields := by
  obtain ⟨p, hp, rfl⟩ := List.mem_map.mp h
  exact mem_stringsFields.mpr ⟨p, hp, .inl rfl⟩

theorem mem_strings_single {key : String} {value : Json} :
    s ∈ (Json.single key value).strings ↔ s = key ∨ s ∈ value.strings := by
  simp [single, strings, stringsFields]

theorem strings_asArray (value : Json) : value.asArray.strings = value.strings := by
  cases value <;> simp [asArray, strings, stringsItems]

theorem mem_strings_of_mem_names {value : Json} (h : s ∈ value.names) : s ∈ value.strings := by
  cases value with
  | str name => exact h
  | arr items =>
    obtain ⟨item, hitem, hs⟩ := List.mem_filterMap.mp h
    refine mem_stringsItems.mpr ⟨item, hitem, ?_⟩
    cases item with
    | str name =>
      cases hs
      exact List.mem_singleton_self _
    | _ => cases hs
  | _ => cases h

end Json

/-! ## Merging -/

namespace Object

open Json (stringsFields mem_stringsFields)

variable {s : String}

theorem mem_strings_insert {key : String} {value : Json} {fields : Object}
    (h : s ∈ stringsFields (fields.insert key value)) :
    s ∈ stringsFields fields ∨ s = key ∨ s ∈ value.strings := by
  obtain ⟨p, hp, hs⟩ := mem_stringsFields.mp h
  rcases Fields.mem_of_mem_insert hp with hp | rfl
  · exact .inl (mem_stringsFields.mpr ⟨p, hp, hs⟩)
  · exact .inr hs

mutual

theorem mem_strings_mergeValue : ∀ {value : Json} {key : String} {target : Object},
    s ∈ stringsFields (mergeValue target key value) →
      s ∈ stringsFields target ∨ s = key ∨ s ∈ value.strings
  | .obj incoming, key, target, h => by
    rw [mergeValue] at h
    split at h
    · rename_i existing hfind
      rcases mem_strings_insert h with h | h | h
      · exact .inl h
      · exact .inr (.inl h)
      · rcases mem_strings_merge h with h | h
        · exact .inl (mem_stringsFields.mpr ⟨_, Fields.mem_of_find? hfind, .inr h⟩)
        · exact .inr (.inr h)
    · exact mem_strings_insert h
  | .null, _, _, h => mem_strings_insert (by rwa [mergeValue] at h)
  | .bool _, _, _, h => mem_strings_insert (by rwa [mergeValue] at h)
  | .num _, _, _, h => mem_strings_insert (by rwa [mergeValue] at h)
  | .str _, _, _, h => mem_strings_insert (by rwa [mergeValue] at h)
  | .arr _, _, _, h => mem_strings_insert (by rwa [mergeValue] at h)

/-- Merging brings no string in that is in neither of the two. -/
theorem mem_strings_merge : ∀ {new : List (String × Json)} {old : Object},
    s ∈ stringsFields (merge old new) → s ∈ stringsFields old ∨ s ∈ stringsFields new
  | [], _, h => .inl (by rwa [merge] at h)
  | (key, value) :: rest, _, h => by
    rw [merge] at h
    rw [stringsFields, List.cons_append, List.mem_cons, List.mem_append]
    rcases mem_strings_merge h with h | h
    · rcases mem_strings_mergeValue h with h | h | h
      · exact .inl h
      · exact .inr (.inl h)
      · exact .inr (.inr (.inl h))
    · exact .inr (.inr (.inr h))

end

end Object

/-! ## Fragments -/

/-- The names that come into a fragment without a token that spells them. -/
def Operator.names : List String := ["$gt", "$gte", "$lt", "$lte", "$ne", "$not", "$in", "$nin"]

theorem Operator.canonical_cases (operator : String) : canonical operator = operator ∨ canonical operator ∈ names := by
  unfold canonical
  split
  case h_7 => exact .inl rfl
  all_goals exact .inr (by decide)

/-- The strings of the key, of the operator and of the value. -/
def Condition.strings (c : Condition) : List String := c.key :: (c.operator.toList ++ c.value.strings)

theorem Condition.mem_strings_of_value {c : Condition} {s : String} (h : s ∈ c.value.strings) : s ∈ c.strings :=
  List.mem_cons_of_mem _ (List.mem_append_right _ h)

/-- A comparison is one and the same in both styles, with no strings but those of the condition, unless it is a `LIKE`;
then it is one pattern in the spelling of the style. -/
theorem Condition.comparison_cases {style : LikeStyle} {c : Condition} {j : Json} (h : c.comparison style = .ok j) :
    (c.operator.any Operator.isLike = false ∧ (∀ s ∈ j.strings, s ∈ c.strings ∨ s ∈ Operator.names) ∧
      ∀ style', c.comparison style' = .ok j) ∨
    (c.operator.any Operator.isLike = true ∧
      ∃ regex, j = Like.operand style regex ∧ ∀ style', c.comparison style' = .ok (Like.operand style' regex)) := by
  obtain ⟨key, operator, value⟩ := c
  cases operator with
  | none =>
    cases h
    exact .inl ⟨rfl, fun s hs => .inl (mem_strings_of_value hs), fun _ => rfl⟩
  | some op =>
    simp only [comparison, Operator.operand, Option.any_some] at h ⊢
    by_cases hlike : Operator.isLike op = true
    · simp only [hlike, ↓reduceIte] at h ⊢
      cases value with
      | str raw =>
        cases h
        exact .inr ⟨trivial, _, rfl, fun _ => rfl⟩
      | _ => cases h
    · simp only [hlike, Bool.false_eq_true, ↓reduceIte] at h ⊢
      cases h
      refine .inl ⟨trivial, fun s hs => ?_, fun _ => rfl⟩
      rcases Json.mem_strings_single.mp hs with rfl | hs
      · rcases Operator.canonical_cases op with hop | hop
        · rw [hop]
          exact .inl (by simp [strings])
        · exact .inr hop
      · exact .inl (mem_strings_of_value hs)

namespace Leaf

variable {style : LikeStyle} {l : Leaf} {fragment : Json}

/-- A `LIKE` that is not turned into anything else. -/
def isPattern (l : Leaf) : Bool := l.modifier == .plain && l.condition.operator.any Operator.isLike

/-- The three kinds of fragments: one that is the same in both styles, with no strings but those of the condition; a
pattern in the spelling of the style; and the negation of a pattern. -/
theorem fragment_cases (h : l.fragment style = .ok fragment) :
    (l.isPattern = false ∧ (∀ s ∈ fragment.strings, s ∈ l.condition.strings ∨ s ∈ Operator.names) ∧
      ∀ style', l.fragment style' = .ok fragment) ∨
    (l.isPattern = true ∧
      ∃ regex, fragment = Like.operand style regex ∧ ∀ style', l.fragment style' = .ok (Like.operand style' regex)) ∨
    (l.isPattern = false ∧ ∃ regex, fragment = .single "$not" (Like.operand style regex) ∧
      ∀ style', l.fragment style' = .ok (.single "$not" (Like.operand style' regex))) := by
  obtain ⟨c, modifier⟩ := l
  -- An operator that stands around a value brings in its own name only.
  have hlisted : ∀ name ∈ Operator.names, ∀ s ∈ (Json.single name c.value.asArray).strings,
      s ∈ c.strings ∨ s ∈ Operator.names := by
    intro name hname s hs
    rw [Json.mem_strings_single, Json.strings_asArray] at hs
    rcases hs with rfl | hs
    · exact .inr hname
    · exact .inl (Condition.mem_strings_of_value hs)
  cases modifier with
  | plain =>
    rcases Condition.comparison_cases h with ⟨hlike, hs, hj⟩ | ⟨hlike, hj⟩
    · exact .inl ⟨hlike, hs, hj⟩
    · exact .inr (.inl ⟨hlike, hj⟩)
  | not =>
    simp only [Leaf.fragment, Condition.fragment] at h ⊢
    cases hop : c.operator with
    | none =>
      simp only [hop] at h ⊢
      cases h
      refine .inl ⟨rfl, fun s hs => ?_, fun _ => rfl⟩
      rcases Json.mem_strings_single.mp hs with rfl | hs
      · exact .inr (by decide)
      · exact .inl (Condition.mem_strings_of_value hs)
    | some op =>
      simp only [hop] at h ⊢
      obtain ⟨j, hj, rfl⟩ := map_eq_ok.mp h
      rcases Condition.comparison_cases hj with ⟨_, hs, hsame⟩ | ⟨_, regex, rfl, hsame⟩
      · refine .inl ⟨rfl, fun s hmem => ?_, fun style' => by rw [hsame style']; rfl⟩
        rcases Json.mem_strings_single.mp hmem with rfl | hmem
        · exact .inr (by decide)
        · exact hs s hmem
      · exact .inr (.inr ⟨rfl, regex, rfl, fun style' => by rw [hsame style']; rfl⟩)
  | inList =>
    cases h
    exact .inl ⟨rfl, hlisted "$in" (by decide), fun _ => rfl⟩
  | notInList =>
    cases h
    exact .inl ⟨rfl, hlisted "$nin" (by decide), fun _ => rfl⟩

end Leaf

/-! ## Trees -/

/-- All strings in the payloads of a tree. -/
def Tree.strings (tree : Tree) : List String :=
  (tree.groups.flatMap Group.tokens).flatMap fun t => t.value.strings

theorem Group.mem_tokens_of_mem {nodes : List Node} {t : Token} (h : .token t ∈ nodes) : t ∈ Group.tokens nodes := by
  induction nodes with
  | nil => cases h
  | cons node rest ih =>
    rw [Group.tokens, List.mem_append]
    rcases List.mem_cons.mp h with rfl | h
    · exact .inl (List.mem_singleton_self t)
    · exact .inr (ih h)

theorem Node.mem_strings_of_mem_counted {node : Node} {attr : String} (h : attr ∈ node.counted) :
    ∃ t, node = .token t ∧ attr ∈ t.value.strings := by
  unfold Node.counted at h
  split at h
  · rw [Json.countedNames] at h
    split at h
    · cases h
    · exact ⟨_, rfl, Json.mem_strings_of_mem_names h⟩
  · cases h

/-- The conditions of a tree have no other strings than the tree, but for the operator of existence. -/
theorem Tree.strings_leaf {tree : Tree} {count : CountStyle} {l : Leaf}
    (hl : l ∈ Addition.leavesAll (tree.additions count)) {s : String} (hs : s ∈ l.condition.strings) :
    s ∈ tree.strings ∨ s = "$exists" := by
  have hmem : ∀ {segment : Segment}, segment ∈ tree.segments → ∀ {t : Token}, t ∈ Group.tokens segment.nodes →
      s ∈ t.value.strings → s ∈ tree.strings := by
    intro segment hsegment t ht hst
    obtain ⟨g, hg, ht⟩ := Tree.mem_tokens_of_mem_segments hsegment ht
    exact List.mem_flatMap.mpr ⟨t, List.mem_flatMap.mpr ⟨g, hg, ht⟩, hst⟩
  obtain ⟨p, hp, hl⟩ := Tree.leaves_additions hl
  rcases Tree.drawn_parts hp hl with ⟨segment, hsegment, _, hdrawn⟩ | ⟨segment, hsegment, _, node, hnode, attr, ha, rfl⟩
  · refine .inl ?_
    rcases List.mem_cons.mp hs with rfl | hs
    · exact hmem hsegment hdrawn.key (List.mem_singleton_self _)
    · rcases List.mem_append.mp hs with hs | hs
      · exact hmem hsegment (hdrawn.operator s (Option.mem_toList.mp hs)) (List.mem_singleton_self _)
      · exact hmem hsegment hdrawn.value hs
  · have hexists : s = attr ∨ s = "$exists" := by
      simpa [Leaf.existence, Condition.strings, Json.strings] using hs
    refine hexists.imp_left fun hattr => ?_
    obtain ⟨t, rfl, ht⟩ := Node.mem_strings_of_mem_counted ha
    exact hmem hsegment (Group.mem_tokens_of_mem hnode) (hattr ▸ ht)

end DocQuery
