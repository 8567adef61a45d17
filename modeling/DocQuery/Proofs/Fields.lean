import DocQuery.Json.Merge
import DocQuery.Tree.Reader

/-!
# Insertion and unique keys

Where an insertion goes: a key that is there cuts the fields at its place (`exists_split_of_find?`), and a new one
is appended (`insert_of_find?_none`). Everything that is proved about objects built by insertion rests on these two.

A value *has unique keys* if no object in it repeats one. Payloads that were read from a text have unique keys
(`Tree.hasUniqueKeys_of_ofText`).
-/

namespace DocQuery

/-! ## Insertion -/

namespace Fields

variable {α : Type} {fields : Fields α} {key : String}

theorem find?_eq_none_iff : fields.find? key = none ↔ key ∉ fields.keys := by
  induction fields with
  | nil => simp [find?, keys]
  | cons p rest ih =>
    obtain ⟨k, v⟩ := p
    by_cases h : k = key
    · simp [find?, keys, h]
    · have h' : key ≠ k := fun e => h e.symm
      simpa [find?, keys, h, h'] using ih

theorem find?_append {before after : Fields α} (h : before.find? key = none) :
    (before ++ after).find? key = after.find? key := by
  induction before with
  | nil => rfl
  | cons p rest ih =>
    obtain ⟨k, v⟩ := p
    by_cases hk : k = key
    · simp [find?, hk] at h
    · simp only [find?, hk, ↓reduceIte] at h
      simp only [List.cons_append, find?, hk, ↓reduceIte, ih h]

/-- An insertion goes past the fields with other keys. -/
theorem insert_append {before after : Fields α} (h : before.find? key = none) (value : α) :
    (before ++ after).insert key value = before ++ after.insert key value := by
  induction before with
  | nil => rfl
  | cons p rest ih =>
    obtain ⟨k, v⟩ := p
    by_cases hk : k = key
    · simp [find?, hk] at h
    · simp only [find?, hk, ↓reduceIte] at h
      simp only [List.cons_append, insert, hk, ↓reduceIte, ih h]

/-- A new key goes to the end. -/
theorem insert_of_find?_none (h : fields.find? key = none) (value : α) :
    fields.insert key value = fields ++ [(key, value)] := by
  have happend : (fields ++ []).insert key value = fields ++ insert key value [] := insert_append h value
  rwa [List.append_nil] at happend

/-- A key that is there cuts the fields at its place, and insertion replaces its value there. -/
theorem exists_split_of_find? {old : α} (h : fields.find? key = some old) :
    ∃ before after, fields = before ++ (key, old) :: after ∧
      ∀ value, fields.insert key value = before ++ (key, value) :: after := by
  induction fields with
  | nil => simp [find?] at h
  | cons p rest ih =>
    obtain ⟨k, v⟩ := p
    by_cases hk : k = key
    · simp only [find?, hk, ↓reduceIte, Option.some.injEq] at h
      subst hk h
      exact ⟨[], rest, rfl, fun value => by simp [insert]⟩
    · simp only [find?, hk, ↓reduceIte] at h
      obtain ⟨before, after, rfl, hins⟩ := ih h
      exact ⟨(k, v) :: before, after, rfl, fun value => by simp [insert, hk, hins]⟩

theorem mem_of_find? {old : α} (h : fields.find? key = some old) : (key, old) ∈ fields := by
  obtain ⟨before, after, rfl, _⟩ := exists_split_of_find? h
  simp

/-- Where keys are unique, every field is the one that is found. -/
theorem find?_of_mem {value : α} (hnodup : fields.keys.Nodup) (h : (key, value) ∈ fields) :
    fields.find? key = some value := by
  induction fields with
  | nil => cases h
  | cons p rest ih =>
    obtain ⟨k, v⟩ := p
    simp only [keys, List.map_cons, List.nodup_cons] at hnodup
    rcases List.mem_cons.mp h with h | h
    · cases h
      simp [find?]
    · have hne : k ≠ key := fun e => hnodup.1 (e ▸ List.mem_map_of_mem h)
      simp only [find?, hne, ↓reduceIte]
      exact ih hnodup.2 h

/-- The fields with another key stay. -/
theorem mem_insert_of_ne {p : String × α} (hp : p ∈ fields) (hne : p.1 ≠ key) (value : α) :
    p ∈ fields.insert key value := by
  cases h : fields.find? key with
  | none => rw [insert_of_find?_none h]; exact List.mem_append_left _ hp
  | some old =>
    obtain ⟨before, after, rfl, hins⟩ := exists_split_of_find? h
    rw [hins]
    have hold : p ≠ (key, old) := fun e => hne (congrArg Prod.fst e)
    simp only [List.mem_append, List.mem_cons, hold, false_or] at hp ⊢
    exact hp.imp_right Or.inr

/-- An insertion brings one field in. -/
theorem mem_of_mem_insert {p : String × α} {value : α} (hp : p ∈ fields.insert key value) :
    p ∈ fields ∨ p = (key, value) := by
  cases h : fields.find? key with
  | none =>
    rw [insert_of_find?_none h] at hp
    simpa using hp
  | some old =>
    obtain ⟨before, after, rfl, hins⟩ := exists_split_of_find? h
    rw [hins] at hp
    simp only [List.mem_append, List.mem_cons] at hp ⊢
    rcases hp with hp | hp | hp
    · exact .inl (.inl hp)
    · exact .inr hp
    · exact .inl (.inr (.inr hp))

/-- In fields with unique keys, a key that cuts them is not on either side. -/
theorem not_mem_keys_of_nodup {before after : Fields α} {value : α}
    (h : (before ++ (key, value) :: after).keys.Nodup) : key ∉ before.keys ∧ key ∉ after.keys := by
  simp only [keys, List.map_append, List.map_cons, List.nodup_append, List.nodup_cons] at h
  obtain ⟨_, ⟨hafter, _⟩, hne⟩ := h
  exact ⟨fun hm => hne key hm key (by simp) rfl, hafter⟩

theorem mem_keys {p : String × α} (h : p ∈ fields) : p.1 ∈ fields.keys := List.mem_map_of_mem h

theorem mem_keys_insert {k : String} (key : String) (value : α) :
    k ∈ (fields.insert key value).keys ↔ k ∈ fields.keys ∨ k = key := by
  rw [keys_insert]
  split
  · rename_i h
    exact ⟨.inl, fun hk => hk.elim id fun e => e ▸ h⟩
  · simp

theorem nodup_keys_ofList (pairs : List (String × α)) : (ofList pairs).keys.Nodup := by
  -- The keys stay unique along the whole fold, from any start with unique keys.
  have run : ∀ (ps : List (String × α)) (start : Fields α), start.keys.Nodup →
      (ps.foldl (fun fields p => fields.insert p.1 p.2) start).keys.Nodup := by
    intro ps
    induction ps with
    | nil => exact fun _ h => h
    | cons p ps ih => exact fun start h => ih _ (nodup_keys_insert p.1 p.2 h)
  exact run pairs [] (by simp [keys])

end Fields

/-! ## Merging -/

namespace Object

variable {old new : Object} {key : String}

theorem mergeValue_of_find?_none (h : old.find? key = none) (value : Json) :
    mergeValue old key value = old ++ [(key, value)] := by
  cases value <;> simp [mergeValue, h, Fields.insert_of_find?_none h]

theorem exists_mergeValue_eq_insert (old : Object) (key : String) (value : Json) :
    ∃ entry, mergeValue old key value = old.insert key entry := by
  cases value with
  | obj incoming =>
    rw [mergeValue]
    split
    · exact ⟨_, rfl⟩
    · exact ⟨_, rfl⟩
  | _ => exact ⟨_, by rw [mergeValue]⟩

/-- Fields on new keys are appended. -/
theorem merge_of_disjoint (hnodup : new.keys.Nodup) (h : ∀ k ∈ new.keys, old.find? k = none) :
    merge old new = old ++ new := by
  induction new generalizing old with
  | nil => simp [merge]
  | cons p rest ih =>
    obtain ⟨k, v⟩ := p
    have hk : old.find? k = none := h k (by simp [Fields.keys])
    simp only [Fields.keys, List.map_cons, List.nodup_cons] at hnodup
    rw [merge, mergeValue_of_find?_none hk, ih hnodup.2]
    · simp
    · intro k' hk'
      have hne : k' ≠ k := fun e => hnodup.1 (e ▸ hk')
      have hold : k' ∉ old.keys := Fields.find?_eq_none_iff.mp (h k' (List.mem_cons_of_mem _ hk'))
      rw [Fields.find?_eq_none_iff]
      simpa [Fields.keys, hne] using hold

/-- A single field is merged into nothing as it is. -/
theorem merge_nil_single (p : String × Json) : merge [] [p] = [p] :=
  merge_of_disjoint (by simp [Fields.keys]) fun _ _ => rfl

theorem mergeValue_append {before after : Object} (h : before.find? key = none) (value : Json) :
    mergeValue (before ++ after) key value = before ++ mergeValue after key value := by
  cases value <;> simp only [mergeValue, Fields.find?_append h, Fields.insert_append h]
  split <;> rfl

/-- Fields that no incoming key names stay in front of all others. -/
theorem merge_append {before after : Object} (h : ∀ k ∈ new.keys, before.find? k = none) :
    merge (before ++ after) new = before ++ merge after new := by
  induction new generalizing after with
  | nil => simp only [merge]
  | cons p rest ih =>
    obtain ⟨k, v⟩ := p
    simp only [Fields.keys, List.map_cons, List.forall_mem_cons] at h
    rw [merge, merge, mergeValue_append h.1, ih h.2]

/-- The fields of the target whose key does not come in stay. -/
theorem mem_merge_of_not_mem_keys {p : String × Json} (hp : p ∈ old) (hk : p.1 ∉ new.keys) : p ∈ merge old new := by
  induction new generalizing old with
  | nil => simpa [merge] using hp
  | cons q rest ih =>
    obtain ⟨k, v⟩ := q
    simp only [Fields.keys, List.map_cons, List.mem_cons, not_or] at hk
    obtain ⟨entry, he⟩ := exists_mergeValue_eq_insert old k v
    rw [merge, he]
    exact ih (Fields.mem_insert_of_ne hp hk.1 entry) hk.2

theorem mem_keys_merge {k : String} : k ∈ (merge old new).keys ↔ k ∈ old.keys ∨ k ∈ new.keys := by
  induction new generalizing old with
  | nil => simp [merge, Fields.keys]
  | cons q rest ih =>
    obtain ⟨key, value⟩ := q
    obtain ⟨entry, he⟩ := exists_mergeValue_eq_insert old key value
    rw [merge, he, ih, Fields.mem_keys_insert, or_assoc]
    simp [Fields.keys]

end Object

/-! ## Unique keys -/

namespace Json

mutual

/-- No object in the value repeats a key. -/
def hasUniqueKeys : Json → Bool
  | .arr items => itemsHaveUniqueKeys items
  | .obj fields => decide (Fields.keys fields).Nodup && fieldsHaveUniqueKeys fields
  | .null => true
  | .bool _ => true
  | .num _ => true
  | .str _ => true

def itemsHaveUniqueKeys : List Json → Bool
  | [] => true
  | item :: rest => item.hasUniqueKeys && itemsHaveUniqueKeys rest

def fieldsHaveUniqueKeys : List (String × Json) → Bool
  | [] => true
  | (_, value) :: rest => value.hasUniqueKeys && fieldsHaveUniqueKeys rest

end

theorem nodup_keys_of_hasUniqueKeys {fields : List (String × Json)} (h : (Json.obj fields).hasUniqueKeys = true) :
    (Fields.keys fields).Nodup := by
  simp only [hasUniqueKeys, Bool.and_eq_true, decide_eq_true_eq] at h
  exact h.1

theorem hasUniqueKeys_single (key : String) {value : Json} (h : value.hasUniqueKeys = true) :
    (Json.single key value).hasUniqueKeys = true := by
  simp [single, hasUniqueKeys, fieldsHaveUniqueKeys, Fields.keys, h]

theorem fieldsHaveUniqueKeys_insert {fields : List (String × Json)} {value : Json} (key : String)
    (hf : fieldsHaveUniqueKeys fields = true) (hv : value.hasUniqueKeys = true) :
    fieldsHaveUniqueKeys (Fields.insert key value fields) = true := by
  induction fields with
  | nil => simp [Fields.insert, fieldsHaveUniqueKeys, hv]
  | cons p rest ih =>
    obtain ⟨k, v⟩ := p
    simp only [fieldsHaveUniqueKeys, Bool.and_eq_true] at hf
    by_cases hk : k = key
    · simp [Fields.insert, hk, fieldsHaveUniqueKeys, hv, hf.2]
    · simp [Fields.insert, hk, fieldsHaveUniqueKeys, hf.1, ih hf.2]

theorem fieldsHaveUniqueKeys_ofList {pairs : List (String × Json)} (h : fieldsHaveUniqueKeys pairs = true) :
    fieldsHaveUniqueKeys (Fields.ofList pairs) = true := by
  have run : ∀ (ps : List (String × Json)) (start : Fields Json), fieldsHaveUniqueKeys ps = true →
      fieldsHaveUniqueKeys start = true →
      fieldsHaveUniqueKeys (ps.foldl (fun fields p => Fields.insert p.1 p.2 fields) start) = true := by
    intro ps
    induction ps with
    | nil => exact fun _ _ h => h
    | cons p ps ih =>
      intro start hps hstart
      simp only [fieldsHaveUniqueKeys, Bool.and_eq_true] at hps
      exact ih _ hps.2 (fieldsHaveUniqueKeys_insert p.1 hstart hps.1)
  exact run pairs [] h rfl

mutual

/-- Collapsing a value leaves each key once, at every depth. -/
theorem hasUniqueKeys_collapse : ∀ j : Json, j.collapse.hasUniqueKeys = true
  | .arr items => by simp [collapse, hasUniqueKeys, itemsHaveUniqueKeys_collapse items]
  | .obj fields => by
    simp only [collapse, hasUniqueKeys, Bool.and_eq_true, decide_eq_true_eq]
    exact ⟨Fields.nodup_keys_ofList _, fieldsHaveUniqueKeys_ofList (fieldsHaveUniqueKeys_collapse fields)⟩
  | .null => rfl
  | .bool _ => rfl
  | .num _ => rfl
  | .str _ => rfl

theorem itemsHaveUniqueKeys_collapse : ∀ items : List Json, itemsHaveUniqueKeys (collapseItems items) = true
  | [] => rfl
  | item :: rest => by
    simp [collapseItems, itemsHaveUniqueKeys, hasUniqueKeys_collapse item, itemsHaveUniqueKeys_collapse rest]

theorem fieldsHaveUniqueKeys_collapse :
    ∀ fields : List (String × Json), fieldsHaveUniqueKeys (collapseFields fields) = true
  | [] => rfl
  | (_, value) :: rest => by
    simp [collapseFields, fieldsHaveUniqueKeys, hasUniqueKeys_collapse value, fieldsHaveUniqueKeys_collapse rest]

end

end Json

/-! ## Tokens of a tree -/

mutual

/-- The tokens of a node in the order of the document, at any depth. -/
def Node.tokens : Node → List Token
  | .token t => [t]
  | .group nodes => Group.tokens nodes

def Group.tokens : List Node → List Token
  | [] => []
  | node :: rest => node.tokens ++ Group.tokens rest

end

theorem Group.tokens_append (xs ys : List Node) : Group.tokens (xs ++ ys) = Group.tokens xs ++ Group.tokens ys := by
  induction xs with
  | nil => rfl
  | cons x xs ih => rw [List.cons_append, Group.tokens, ih, Group.tokens, List.append_assoc]

/-- No payload repeats a key in an object. -/
def Tree.HasUniqueKeys (tree : Tree) : Prop :=
  ∀ g ∈ tree.groups, ∀ t ∈ Group.tokens g, t.value.hasUniqueKeys = true

mutual

theorem Node.tokens_mapPayload (f : Json → Json) :
    ∀ node : Node, (node.mapPayload f).tokens = node.tokens.map fun t => { t with value := f t.value }
  | .token t => rfl
  | .group nodes => by rw [Node.mapPayload, Node.tokens, Node.tokens, Group.tokens_mapPayloads f nodes]

theorem Group.tokens_mapPayloads (f : Json → Json) :
    ∀ nodes : List Node,
      Group.tokens (Node.mapPayloads f nodes) = (Group.tokens nodes).map fun t => { t with value := f t.value }
  | [] => rfl
  | node :: rest => by
    rw [Node.mapPayloads, Group.tokens, Group.tokens, List.map_append, Node.tokens_mapPayload f node,
      Group.tokens_mapPayloads f rest]

end

/-- A tree that was read from a text has unique keys. -/
theorem Tree.hasUniqueKeys_of_ofText {text : String} {tree : Tree} (h : Tree.ofText text = .ok tree) :
    tree.HasUniqueKeys := by
  unfold Tree.ofText at h
  split at h
  · cases h
  · rename_i json _
    cases hj : Tree.ofJson json with
    | error e => rw [hj] at h; cases h
    | ok raw =>
      rw [hj] at h
      cases h
      intro g hg t ht
      obtain ⟨g', _, rfl⟩ := List.mem_map.mp hg
      rw [Group.tokens_mapPayloads] at ht
      obtain ⟨t', _, rfl⟩ := List.mem_map.mp ht
      exact Json.hasUniqueKeys_collapse t'.value

end DocQuery
