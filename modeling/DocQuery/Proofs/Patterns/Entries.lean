import DocQuery.Proofs.Patterns.Strings

/-!
# What conditions on one key make of its entry

The conditions of a conjunction that are on one key have one entry. The first of them opens it, and later ones share it
as long as both sides are operators and have none in common; what cannot share it goes elsewhere (`entryOf`).

A literal is an object with one key, `$regularExpression`, and literals stand alone in a value if no object in it has
that key and another (`Json.LiteralsAlone`). To the rule above, however, a literal is one more operator. So there is a
literal beside other operators exactly if the conditions are *crowded* (`Leaf.Crowded`): the first of them puts
operators into the entry, one is a pattern, and one puts operators that are no pattern (`entryOf_cases`).
-/

namespace DocQuery

/-! ## Objects of a value -/

namespace Json

mutual

/-- The objects of a value at any depth, itself included. -/
def objects : Json → List Object
  | .arr items => objectsItems items
  | .obj fields => fields :: objectsFields fields
  | .null => []
  | .bool _ => []
  | .num _ => []
  | .str _ => []

def objectsItems : List Json → List Object
  | [] => []
  | item :: rest => item.objects ++ objectsItems rest

def objectsFields : List (String × Json) → List Object
  | [] => []
  | (_, value) :: rest => value.objects ++ objectsFields rest

end

/-- No object with the key of a literal has another key. -/
def LiteralsAlone (j : Json) : Prop :=
  ∀ o ∈ j.objects, "$regularExpression" ∈ o.keys → ∀ key ∈ o.keys, key = "$regularExpression"

instance (j : Json) : Decidable j.LiteralsAlone :=
  inferInstanceAs (Decidable (∀ o ∈ j.objects, "$regularExpression" ∈ o.keys → ∀ key ∈ o.keys, _))

theorem mem_objectsItems {o : Object} {items : List Json} :
    o ∈ objectsItems items ↔ ∃ item ∈ items, o ∈ item.objects := by
  induction items with
  | nil => simp [objectsItems]
  | cons item rest ih => simp [objectsItems, ih]

theorem mem_objectsFields {o : Object} {fields : List (String × Json)} :
    o ∈ objectsFields fields ↔ ∃ p ∈ fields, o ∈ p.2.objects := by
  induction fields with
  | nil => simp [objectsFields]
  | cons p rest ih =>
    obtain ⟨key, value⟩ := p
    simp [objectsFields, ih]

theorem literalsAlone_arr {items : List Json} : (Json.arr items).LiteralsAlone ↔ ∀ i ∈ items, i.LiteralsAlone := by
  constructor
  · intro h i hi o ho
    exact h o (mem_objectsItems.mpr ⟨i, hi, ho⟩)
  · intro h o ho
    obtain ⟨i, hi, ho⟩ := mem_objectsItems.mp ho
    exact h i hi o ho

theorem literalsAlone_obj {fields : Object} : (Json.obj fields).LiteralsAlone ↔
    ¬ ("$regularExpression" ∈ fields.keys ∧ ∃ key ∈ fields.keys, key ≠ "$regularExpression") ∧
      ∀ p ∈ fields, p.2.LiteralsAlone := by
  constructor
  · intro h
    constructor
    · rintro ⟨hliteral, key, hkey, hne⟩
      exact hne (h fields List.mem_cons_self hliteral key hkey)
    · intro p hp o ho
      exact h o (List.mem_cons_of_mem _ (mem_objectsFields.mpr ⟨p, hp, ho⟩))
  · rintro ⟨htop, hvalues⟩ o ho
    rcases List.mem_cons.mp ho with rfl | ho
    · intro hliteral key hkey
      exact Decidable.not_not.mp fun hne => htop ⟨hliteral, key, hkey, hne⟩
    · obtain ⟨p, hp, ho⟩ := mem_objectsFields.mp ho
      exact hvalues p hp o ho

mutual

theorem mem_strings_of_mem_objects {s : String} {o : Object} (hs : s ∈ o.keys) :
    ∀ {j : Json}, o ∈ j.objects → s ∈ j.strings
  | .arr items, h => by
    rw [objects] at h
    exact mem_strings_of_mem_objectsItems hs h
  | .obj fields, h => by
    rcases List.mem_cons.mp h with rfl | h
    · exact mem_stringsFields_of_mem_keys hs
    · exact mem_strings_of_mem_objectsFields hs h
  | .null, h => by cases h
  | .bool _, h => by cases h
  | .num _, h => by cases h
  | .str _, h => by cases h

theorem mem_strings_of_mem_objectsItems {s : String} {o : Object} (hs : s ∈ o.keys) :
    ∀ {items : List Json}, o ∈ objectsItems items → s ∈ stringsItems items
  | [], h => by cases h
  | item :: rest, h => by
    rw [stringsItems, List.mem_append]
    rw [objectsItems, List.mem_append] at h
    exact h.imp (mem_strings_of_mem_objects hs) (mem_strings_of_mem_objectsItems hs)

theorem mem_strings_of_mem_objectsFields {s : String} {o : Object} (hs : s ∈ o.keys) :
    ∀ {fields : List (String × Json)}, o ∈ objectsFields fields → s ∈ stringsFields fields
  | [], h => by cases h
  | (key, value) :: rest, h => by
    rw [stringsFields, List.cons_append, List.mem_cons, List.mem_append]
    rw [objectsFields, List.mem_append] at h
    exact .inr (h.imp (mem_strings_of_mem_objects hs) (mem_strings_of_mem_objectsFields hs))

end

/-- Where the key does not occur, there is no literal. -/
theorem literalsAlone_of_not_mem {j : Json} (h : "$regularExpression" ∉ j.strings) : j.LiteralsAlone :=
  fun _ ho hliteral => absurd (mem_strings_of_mem_objects hliteral ho) h

theorem literalsAlone_single {key : String} {value : Json} (h : value.LiteralsAlone) :
    (Json.single key value).LiteralsAlone := by
  refine literalsAlone_obj.mpr ⟨?_, ?_⟩
  · rintro ⟨hliteral, k, hk, hne⟩
    simp only [Fields.keys, List.map_cons, List.map_nil, List.mem_singleton] at hliteral hk
    exact hne (hk.trans hliteral.symm)
  · simpa using h

end Json

open Json (LiteralsAlone literalsAlone_obj)

/-! ## Fragments -/

theorem Like.literalsAlone_operand (regex : String) : (Like.operand .literal regex).LiteralsAlone := by
  refine Json.literalsAlone_single (literalsAlone_obj.mpr ⟨?_, ?_⟩)
  · simp [Fields.keys]
  · simp [LiteralsAlone, Json.objects]

namespace Leaf

/-- The condition puts operators under its key, and not a value. -/
def putsOperators (l : Leaf) : Bool :=
  match l.modifier, l.condition.operator, l.condition.value with
  | .plain, none, .obj fields => Object.isOperators fields
  | .plain, none, _ => false
  | .plain, some operator, _ => Operator.isLike operator || isOperatorName (Operator.canonical operator)
  | _, _, _ => true

theorem putsOperators_of_isPattern {l : Leaf} (h : l.isPattern = true) : l.putsOperators = true := by
  obtain ⟨⟨key, operator, value⟩, modifier⟩ := l
  simp only [isPattern, Bool.and_eq_true, beq_iff_eq] at h
  obtain ⟨rfl, h⟩ := h
  cases operator with
  | none => cases h
  | some op =>
    have hlike : Operator.isLike op = true := h
    simp [putsOperators, hlike]

theorem putsOperators_iff {style : LikeStyle} {l : Leaf} {fragment : Json} (h : l.fragment style = .ok fragment) :
    l.putsOperators = true ↔ ∃ o : Object, fragment = .obj o ∧ o.isOperators = true := by
  have hsingle : ∀ (key : String) (value : Json),
      (∃ o : Object, Json.single key value = .obj o ∧ o.isOperators = true) ↔ isOperatorName key = true := by
    intro key value
    simp [Json.single, Object.isOperators, Fields.keys]
  obtain ⟨⟨key, operator, value⟩, modifier⟩ := l
  cases modifier with
  | plain =>
    cases operator with
    | none =>
      cases h
      cases value <;> simp [putsOperators]
    | some op =>
      have hcomparison : Condition.comparison style ⟨key, some op, value⟩ = .ok fragment := h
      rcases Condition.comparison_cases hcomparison with ⟨hlike, _⟩ | ⟨hlike, regex, rfl, _⟩
      · simp only [Option.any_some] at hlike
        simp only [Condition.comparison, hlike, Bool.false_eq_true, ↓reduceIte] at hcomparison
        cases hcomparison
        simp [putsOperators, hlike, hsingle]
      · simp only [Option.any_some] at hlike
        refine iff_of_true (by simp [putsOperators, hlike]) ?_
        cases style with
        | regex => exact (hsingle "$regex" _).mpr (by decide +kernel)
        | literal => exact (hsingle "$regularExpression" _).mpr (by decide +kernel)
  | not =>
    refine iff_of_true rfl ?_
    cases operator with
    | none =>
      cases h
      exact (hsingle "$ne" _).mpr (by decide +kernel)
    | some op =>
      obtain ⟨j, _, rfl⟩ := map_eq_ok.mp h
      exact (hsingle "$not" j).mpr (by decide +kernel)
  | inList =>
    cases h
    exact iff_of_true rfl ((hsingle "$in" _).mpr (by decide +kernel))
  | notInList =>
    cases h
    exact iff_of_true rfl ((hsingle "$nin" _).mpr (by decide +kernel))

/-- In a fragment the literals stand alone, also once it is merged into nothing; and it is a literal if it is a
pattern. -/
theorem fragment_literal {l : Leaf} {fragment : Json} (hl : "$regularExpression" ∉ l.condition.strings)
    (h : l.fragment .literal = .ok fragment) :
    fragment.LiteralsAlone ∧ ∀ new : Object, fragment = .obj new →
      (∀ p ∈ Object.merge [] new, p.2.LiteralsAlone) ∧
        ∀ key ∈ new.keys, key = "$regularExpression" ↔ l.isPattern = true := by
  have hsingle : ∀ {key : String} {value : Json}, value.LiteralsAlone →
      ∀ p ∈ Object.merge [] [(key, value)], p.2.LiteralsAlone := by
    intro key value hvalue p hp
    rw [Object.merge_nil_single, List.mem_singleton] at hp
    exact hp ▸ hvalue
  rcases fragment_cases h with ⟨hpattern, hs, _⟩ | ⟨hpattern, regex, rfl, _⟩ | ⟨hpattern, regex, rfl, _⟩
  · have hfragment : "$regularExpression" ∉ fragment.strings := fun hmem => (hs _ hmem).elim hl (by decide)
    refine ⟨Json.literalsAlone_of_not_mem hfragment, ?_⟩
    rintro new rfl
    constructor
    · intro p hp
      refine Json.literalsAlone_of_not_mem fun hmem => hfragment ?_
      have hmerged : "$regularExpression" ∈ Json.stringsFields (Object.merge [] new) :=
        Json.mem_stringsFields.mpr ⟨p, hp, .inr hmem⟩
      exact (Object.mem_strings_merge hmerged).elim (fun h => by cases h) id
    · intro key hkey
      refine iff_of_false (fun e => hfragment ?_) (by simp [hpattern])
      exact Json.mem_stringsFields_of_mem_keys (e ▸ hkey)
  · refine ⟨Like.literalsAlone_operand regex, ?_⟩
    rintro new hnew
    have halone := (literalsAlone_obj.mp (Like.literalsAlone_operand regex)).2
    cases hnew
    refine ⟨hsingle (halone _ List.mem_cons_self), fun key hkey => iff_of_true ?_ hpattern⟩
    simpa [Fields.keys] using hkey
  · have halone := Like.literalsAlone_operand regex
    refine ⟨Json.literalsAlone_single halone, ?_⟩
    rintro new hnew
    cases hnew
    refine ⟨hsingle halone, fun key hkey => iff_of_false ?_ (by simp [hpattern])⟩
    simp only [Fields.keys, List.map_cons, List.map_nil, List.mem_singleton] at hkey
    rw [hkey]
    decide

/-! ## Entries -/

/-- What stands under the key of a condition once it has been added: the condition opens the entry or shares it, or the
entry stays as it is. -/
def entryAfter (existing : Option Json) (l : Leaf) : Option Json :=
  match existing, (l.fragment .literal).toOption with
  | none, fragment => fragment
  | some entry, none => some entry
  | some entry, some fragment => some ((Filter.shared? entry fragment).getD entry)

section After

variable {l : Leaf} {fragment : Json} (h : l.fragment .literal = .ok fragment)
include h

theorem entryAfter_none : l.entryAfter none = some fragment := by
  unfold entryAfter
  rw [h]
  rfl

theorem entryAfter_some (entry : Json) :
    l.entryAfter (some entry) = some ((Filter.shared? entry fragment).getD entry) := by
  unfold entryAfter
  rw [h]
  rfl

end After

/-- The conditions on a key. -/
def on (key : String) (ls : List Leaf) : List Leaf := ls.filter fun l => l.condition.key = key

/-- The entry that the conditions on a key make. -/
def entryOf (key : String) (ls : List Leaf) : Option Json := (on key ls).foldl entryAfter none

/-- Of the conditions on a key, the first puts operators there, one is a pattern, and one puts operators and is none. -/
structure Crowded (key : String) (ls : List Leaf) : Prop where
  opened : ∃ l ∈ (on key ls).head?, l.putsOperators = true
  pattern : ∃ l ∈ on key ls, l.isPattern = true
  other : ∃ l ∈ on key ls, l.putsOperators = true ∧ l.isPattern = false

/-- The condition has a fragment, and spells no literal itself. -/
structure Settled (l : Leaf) : Prop where
  strings : "$regularExpression" ∉ l.condition.strings
  fragment : ∃ fragment, l.fragment .literal = .ok fragment

theorem entryOf_append_of_ne {key : String} {l : Leaf} (h : l.condition.key ≠ key) (ls : List Leaf) :
    entryOf key (ls ++ [l]) = entryOf key ls := by
  simp [entryOf, on, h]

theorem entryOf_append_self (ls : List Leaf) (l : Leaf) :
    entryOf l.condition.key (ls ++ [l]) = l.entryAfter (entryOf l.condition.key ls) := by
  simp [entryOf, on]

/-- An entry of operators, in terms of what it holds: a literal, and operators that are none. -/
structure Holding (literal other : Prop) (o : Object) : Prop where
  operators : o.isOperators = true
  values : ∀ p ∈ o, p.2.LiteralsAlone
  literal : "$regularExpression" ∈ o.keys ↔ literal
  other : (∃ key ∈ o.keys, key ≠ "$regularExpression") ↔ other

theorem Holding.literalsAlone_iff {literal other : Prop} {o : Object} (h : Holding literal other o) :
    (Json.obj o).LiteralsAlone ↔ ¬ (literal ∧ other) := by
  rw [literalsAlone_obj, h.literal, h.other]
  exact and_iff_left h.values

/-- The operators of a single condition. -/
theorem holding_fragment {l : Leaf} {new : Object} (hl : "$regularExpression" ∉ l.condition.strings)
    (h : l.fragment .literal = .ok (.obj new)) (hnew : new.isOperators = true) :
    Holding (l.isPattern = true) (l.isPattern = false) new := by
  obtain ⟨halone, hobj⟩ := fragment_literal hl h
  obtain ⟨_, hkeys⟩ := hobj new rfl
  obtain ⟨key, hkey⟩ := List.exists_mem_of_ne_nil _ (Filter.isOperators_iff.mp hnew).1
  refine ⟨hnew, (literalsAlone_obj.mp halone).2, ?_, ?_⟩
  · constructor
    · intro hliteral
      exact (hkeys _ hliteral).mp rfl
    · intro hpattern
      exact (hkeys key hkey).mpr hpattern ▸ hkey
  · rw [← Bool.not_eq_true]
    constructor
    · rintro ⟨k, hk, hne⟩ hpattern
      exact hne ((hkeys k hk).mpr hpattern)
    · intro hpattern
      exact ⟨key, hkey, fun e => hpattern ((hkeys key hkey).mp e)⟩

/-- One more condition on an entry of operators adds what it holds. -/
theorem Holding.entryAfter {literal other : Prop} {o : Object} (h : Holding literal other o) {l : Leaf}
    (hl : l.Settled) :
    ∃ o', l.entryAfter (some (.obj o)) = some (.obj o') ∧
      Holding (literal ∨ l.isPattern = true) (other ∨ (l.putsOperators = true ∧ l.isPattern = false)) o' := by
  obtain ⟨fragment, hfragment⟩ := hl.fragment
  have hafter := entryAfter_some hfragment (.obj o)
  by_cases hputs : l.putsOperators = true
  · obtain ⟨new, rfl, hnew⟩ := (putsOperators_iff hfragment).mp hputs
    have hbrings := holding_fragment hl.strings hfragment hnew
    by_cases hd : Filter.areDisjoint o new = true
    · refine ⟨Object.merge o new, by rw [hafter, Filter.shared?, if_pos hd]; rfl, ?_⟩
      refine ⟨Filter.isOperators_merge h.operators hnew, ?_, ?_, ?_⟩
      · intro p hp
        rw [Filter.merge_eq_append_merge hd, List.mem_append] at hp
        exact hp.elim (h.values p) (((fragment_literal hl.strings hfragment).2 new rfl).1 p)
      · rw [Object.mem_keys_merge, h.literal, hbrings.literal]
      · simp only [Object.mem_keys_merge, or_and_right, exists_or, h.other, hbrings.other, hputs, true_and]
    · -- The condition goes elsewhere, because the entry has one of its operators already.
      obtain ⟨key, hkey, hmem⟩ : ∃ key ∈ new.keys, key ∈ o.keys := by
        simpa [Filter.areDisjoint_iff, h.operators, hnew] using hd
      refine ⟨o, by rw [hafter, Filter.shared?, if_neg hd]; rfl, h.operators, h.values, ?_, ?_⟩
      · rw [h.literal]
        refine (or_iff_left_of_imp fun hpattern => h.literal.mp ?_).symm
        exact (((fragment_literal hl.strings hfragment).2 new rfl).2 key hkey).mpr hpattern ▸ hmem
      · rw [h.other]
        refine (or_iff_left_of_imp fun hother => h.other.mp ⟨key, hmem, fun e => ?_⟩).symm
        have hpattern := (((fragment_literal hl.strings hfragment).2 new rfl).2 key hkey).mp e
        simp [hpattern] at hother
  · have hshared : Filter.shared? (.obj o) fragment = none := by
      unfold Filter.shared?
      split
      · rename_i old new hold
        cases hold
        refine if_neg fun hd => hputs ((putsOperators_iff hfragment).mpr ⟨new, rfl, ?_⟩)
        exact (Filter.isOperators_of_areDisjoint hd).2
      · rfl
    have hpattern : l.isPattern ≠ true := fun hp => hputs (putsOperators_of_isPattern hp)
    refine ⟨o, by rw [hafter, hshared]; rfl, h.operators, h.values, ?_, ?_⟩
    · rw [h.literal]
      exact (or_iff_left hpattern).symm
    · rw [h.other]
      exact (or_iff_left fun hother => hputs hother.1).symm

theorem Holding.foldl {ls : List Leaf} (hls : ∀ l ∈ ls, l.Settled) {literal other : Prop} {o : Object}
    (h : Holding literal other o) :
    ∃ o', ls.foldl Leaf.entryAfter (some (.obj o)) = some (.obj o') ∧
      Holding (literal ∨ ∃ l ∈ ls, l.isPattern = true)
        (other ∨ ∃ l ∈ ls, l.putsOperators = true ∧ l.isPattern = false) o' := by
  induction ls generalizing literal other o with
  | nil => exact ⟨o, rfl, by simpa using h⟩
  | cons l rest ih =>
    rw [List.forall_mem_cons] at hls
    obtain ⟨o₁, hstep, h₁⟩ := h.entryAfter hls.1
    obtain ⟨o', hrest, h'⟩ := ih hls.2 h₁
    refine ⟨o', by rw [List.foldl_cons, hstep, hrest], ?_⟩
    simpa only [List.mem_cons, or_and_right, exists_or, exists_eq_left, or_assoc] using h'

/-- An entry that holds no operators is not shared. -/
theorem foldl_entryAfter_of_not {entry : Json} (h : ¬ ∃ o : Object, entry = .obj o ∧ o.isOperators = true)
    (ls : List Leaf) : ls.foldl entryAfter (some entry) = some entry := by
  have hshared : ∀ fragment, Filter.shared? entry fragment = none := by
    intro fragment
    unfold Filter.shared?
    split
    · exact if_neg fun hd => h ⟨_, rfl, (Filter.isOperators_of_areDisjoint hd).1⟩
    · rfl
  induction ls with
  | nil => rfl
  | cons l rest ih =>
    have hstep : l.entryAfter (some entry) = some entry := by
      unfold entryAfter
      cases (l.fragment .literal).toOption with
      | none => rfl
      | some fragment => simp only [hshared, Option.getD_none]
    rw [List.foldl_cons, hstep, ih]

/-- **Literals stand alone in an entry** unless its conditions are crowded, and then they do not. -/
theorem entryOf_cases {ls : List Leaf} (hls : ∀ l ∈ ls, l.Settled) (key : String) :
    (¬ Crowded key ls ∧ ∀ entry, entryOf key ls = some entry → entry.LiteralsAlone) ∨
      (Crowded key ls ∧ ∃ o, entryOf key ls = some (.obj o) ∧ ¬ (Json.obj o).LiteralsAlone) := by
  have hon : ∀ l ∈ on key ls, l.Settled := fun l hl => hls l (List.mem_filter.mp hl).1
  unfold entryOf
  cases hfirst : on key ls with
  | nil =>
    refine .inl ⟨?_, nofun⟩
    rintro ⟨_, ⟨l, hl, _⟩, _⟩
    rw [hfirst] at hl
    cases hl
  | cons first rest =>
    rw [hfirst, List.forall_mem_cons] at hon
    obtain ⟨fragment, hfragment⟩ := hon.1.fragment
    rw [List.foldl_cons, entryAfter_none hfragment]
    by_cases hputs : first.putsOperators = true
    · obtain ⟨new, rfl, hnew⟩ := (putsOperators_iff hfragment).mp hputs
      obtain ⟨o, hfold, ho⟩ := (holding_fragment hon.1.strings hfragment hnew).foldl hon.2
      have hcrowded : (Json.obj o).LiteralsAlone ↔ ¬ Crowded key ls := by
        rw [ho.literalsAlone_iff]
        refine not_congr ⟨?_, ?_⟩
        · rintro ⟨hpattern, hother⟩
          refine ⟨⟨first, by simp [hfirst], hputs⟩, ?_, ?_⟩
          · simpa only [hfirst, List.mem_cons, or_and_right, exists_or, exists_eq_left] using hpattern
          · simpa only [hfirst, List.mem_cons, or_and_right, exists_or, exists_eq_left, hputs, true_and] using hother
        · rintro ⟨_, hpattern, hother⟩
          simp only [hfirst, List.mem_cons, or_and_right, exists_or, exists_eq_left, hputs, true_and] at hpattern hother
          exact ⟨hpattern, hother⟩
      by_cases halone : (Json.obj o).LiteralsAlone
      · refine .inl ⟨hcrowded.mp halone, fun entry h => ?_⟩
        cases hfold.symm.trans h
        exact halone
      · exact .inr ⟨Classical.not_not.mp fun h => halone (hcrowded.mpr h), o, hfold, halone⟩
    · have hvalue : ¬ ∃ o : Object, fragment = .obj o ∧ o.isOperators = true := fun ho =>
        hputs ((putsOperators_iff hfragment).mpr ho)
      rw [foldl_entryAfter_of_not hvalue]
      refine .inl ⟨?_, fun entry h => ?_⟩
      · rintro ⟨⟨l, hl, hopened⟩, _, _⟩
        rw [hfirst] at hl
        cases hl
        exact hputs hopened
      · cases h
        exact (fragment_literal hon.1.strings hfragment).1

end Leaf

end DocQuery
