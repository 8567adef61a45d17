import DocQuery.Proofs.Fields

/-!
# Deep merge, key by key and path by path

Fields with unique keys are given by their keys and by what is found under each (`Fields.ext_find?`). A merge of two
objects has the keys of the target and then the new ones (`keys_merge`), and under each key the two values put together
(`find?_merge`), where two objects are merged again and anything else gives way (`Json.merged`). So what a merge has at
a path is told by what the incoming object has there (`Json.at?_merged`).

`Object.merge_by_path` puts this together with the uniqueness of keys and with what a second merge does.
-/

namespace DocQuery

/-- Fields with unique keys are given by their keys and by what is found under each. -/
theorem Fields.ext_find? {α : Type} {fields fields' : Fields α} (hnodup : fields.keys.Nodup)
    (hkeys : fields.keys = fields'.keys) (hfind : ∀ key, fields.find? key = fields'.find? key) : fields = fields' := by
  induction fields generalizing fields' with
  | nil =>
    cases fields' with
    | nil => rfl
    | cons p' rest' => simp [keys] at hkeys
  | cons p rest ih =>
    cases fields' with
    | nil => simp [keys] at hkeys
    | cons p' rest' =>
      obtain ⟨key, value⟩ := p
      obtain ⟨key', value'⟩ := p'
      simp only [keys, List.map_cons, List.cons.injEq] at hkeys
      obtain ⟨rfl, hrest⟩ := hkeys
      obtain ⟨hnew, hnodup⟩ := List.nodup_cons.mp hnodup
      have hvalue : value = value' := by simpa [find?] using hfind key
      have htail : rest = rest' := by
        refine ih hnodup hrest fun k => ?_
        by_cases hk : key = k
        · -- The first key is found on neither side of the rest.
          subst hk
          have hnew' : key ∉ keys rest' := fun h => hnew (hrest ▸ h)
          rw [find?_eq_none_iff.mpr hnew, find?_eq_none_iff.mpr hnew']
        · simpa [find?, hk] using hfind k
      rw [hvalue, htail]

/-! ## Values put together -/

namespace Json

def isObject : Json → Bool
  | .obj _ => true
  | _ => false

/-- What stands under a key when a value comes in: two objects are merged, and anything else gives way. -/
def merged : Option Json → Json → Json
  | some (.obj old), .obj new => .obj (Object.merge old new)
  | _, new => new

theorem merged_cases (old : Option Json) (new : Json) :
    (∃ e n, old = some (.obj e) ∧ new = .obj n ∧ merged old new = .obj (Object.merge e n)) ∨
      ((∀ e, old = some (.obj e) → new.isObject = false) ∧ merged old new = new) := by
  unfold merged
  split
  · rename_i e n
    exact .inl ⟨e, n, rfl, rfl, rfl⟩
  · rename_i hne
    refine .inr ⟨?_, rfl⟩
    rintro e rfl
    cases new with
    | obj n => exact absurd rfl (hne e n rfl)
    | _ => rfl

theorem merged_of_not_object {new : Json} (h : new.isObject = false) (old : Option Json) : merged old new = new := by
  rcases merged_cases old new with ⟨e, n, _, rfl, _⟩ | ⟨_, heq⟩
  · cases h
  · exact heq

theorem merged_onto {old : Option Json} (h : ∀ e, old ≠ some (.obj e)) (new : Json) : merged old new = new := by
  rcases merged_cases old new with ⟨e, _, hold, _⟩ | ⟨_, heq⟩
  · exact absurd hold (h e)
  · exact heq

end Json

namespace Object

open Json (merged)

variable {t i : Object}

theorem mergeValue_eq (t : Object) (key : String) (value : Json) :
    mergeValue t key value = t.insert key (merged (t.find? key) value) := by
  cases value with
  | obj n =>
    rw [mergeValue]
    split
    · rename_i e hfind
      rw [hfind]
      rfl
    · rename_i hne
      rw [Json.merged_onto hne]
  | _ => rw [mergeValue, Json.merged_of_not_object rfl]

/-- **What a merge has under a key**: the incoming value put onto what was there, or what was there. -/
theorem find?_merge (hnodup : i.keys.Nodup) (key : String) :
    (merge t i).find? key = ((i.find? key).map (merged (t.find? key))).or (t.find? key) := by
  induction i generalizing t with
  | nil => rfl
  | cons p rest ih =>
    obtain ⟨k, value⟩ := p
    obtain ⟨hnew, hrest⟩ := List.nodup_cons.mp hnodup
    rw [merge, ih hrest, mergeValue_eq]
    by_cases hk : k = key
    · subst hk
      rw [Fields.find?_eq_none_iff.mpr hnew, Fields.find?_insert_self]
      simp [Fields.find?]
    · rw [Fields.find?_insert_of_ne hk]
      simp [Fields.find?, hk]

/-- The keys of a merge: those of the target in their order, then the new ones in theirs. -/
theorem keys_merge (hnodup : i.keys.Nodup) : (merge t i).keys = t.keys ++ i.keys.filter (· ∉ t.keys) := by
  induction i generalizing t with
  | nil => simp [merge, Fields.keys]
  | cons p rest ih =>
    obtain ⟨k, value⟩ := p
    obtain ⟨hnew, hrest⟩ := List.nodup_cons.mp hnodup
    rw [merge, ih hrest, mergeValue_eq, Fields.keys_insert]
    have hkeys : Fields.keys ((k, value) :: rest) = k :: Fields.keys rest := rfl
    by_cases hk : k ∈ t.keys
    · rw [if_pos hk, hkeys, List.filter_cons_of_neg (by simpa using hk)]
    · rw [if_neg hk, hkeys, List.filter_cons_of_pos (by simpa using hk), List.append_assoc, List.singleton_append]
      -- The key that has just come in does not come in again.
      have hfilter : (Fields.keys rest).filter (· ∉ t.keys ++ [k]) = (Fields.keys rest).filter (· ∉ t.keys) := by
        refine List.filter_congr fun k' hk' => ?_
        have hne : k' ≠ k := fun e => hnew (e ▸ hk')
        simp [hne]
      rw [hfilter]

theorem nodup_keys_merge (ht : t.keys.Nodup) (i : Object) : (merge t i).keys.Nodup := by
  induction i generalizing t with
  | nil => exact ht
  | cons p rest ih =>
    rw [merge, mergeValue_eq]
    exact ih (Fields.nodup_keys_insert _ _ ht)

/-! ## Objects inside objects -/

/-- Induction on the objects that stand under the keys of an object. -/
theorem nested_induction {P : Object → Prop}
    (step : ∀ o : Object, (∀ key inner, o.find? key = some (.obj inner) → P inner) → P o) (o : Object) : P o := by
  induction hsize : sizeOf o using Nat.strongRecOn generalizing o with
  | ind n ih =>
    refine step o fun key inner hfind => ih (sizeOf inner) ?_ inner rfl
    have hmem := List.sizeOf_lt_of_mem (Fields.mem_of_find? hfind)
    simp only [Prod.mk.sizeOf_spec, Json.obj.sizeOf_spec] at hmem
    omega

end Object

/-! ## Unique keys -/

namespace Json

theorem fieldsHaveUniqueKeys_iff {fields : List (String × Json)} :
    fieldsHaveUniqueKeys fields = true ↔ ∀ p ∈ fields, p.2.hasUniqueKeys = true := by
  induction fields with
  | nil => simp [fieldsHaveUniqueKeys]
  | cons p rest ih => simp [fieldsHaveUniqueKeys, ih]

/-- An object has unique keys if its own are unique and what is found under them has unique keys. -/
theorem hasUniqueKeys_obj_iff {o : Object} :
    (Json.obj o).hasUniqueKeys = true ↔
      o.keys.Nodup ∧ ∀ key value, o.find? key = some value → value.hasUniqueKeys = true := by
  simp only [hasUniqueKeys, Bool.and_eq_true, decide_eq_true_eq, fieldsHaveUniqueKeys_iff]
  constructor
  · rintro ⟨hnodup, hfields⟩
    exact ⟨hnodup, fun key value hfind => hfields _ (Fields.mem_of_find? hfind)⟩
  · rintro ⟨hnodup, hfind⟩
    exact ⟨hnodup, fun p hp => hfind p.1 p.2 (Fields.find?_of_mem hnodup hp)⟩

theorem hasUniqueKeys_of_find? {o : Object} {key : String} {value : Json} (h : (Json.obj o).hasUniqueKeys = true)
    (hfind : o.find? key = some value) : value.hasUniqueKeys = true :=
  (hasUniqueKeys_obj_iff.mp h).2 key value hfind

end Json

namespace Object

open Json (merged)

variable {t i : Object}

/-- Keys stay unique at every depth. -/
theorem hasUniqueKeys_merge (ht : (Json.obj t).hasUniqueKeys = true) (hi : (Json.obj i).hasUniqueKeys = true) :
    (Json.obj (merge t i)).hasUniqueKeys = true := by
  induction i using nested_induction generalizing t with
  | step i ih =>
    have hnodup := Json.nodup_keys_of_hasUniqueKeys hi
    refine Json.hasUniqueKeys_obj_iff.mpr ⟨nodup_keys_merge (Json.nodup_keys_of_hasUniqueKeys ht) i, ?_⟩
    intro key value hfind
    rw [find?_merge hnodup] at hfind
    cases hincoming : i.find? key with
    | none =>
      rw [hincoming] at hfind
      exact Json.hasUniqueKeys_of_find? ht hfind
    | some new =>
      have hnew := Json.hasUniqueKeys_of_find? hi hincoming
      simp only [hincoming, Option.map_some, Option.some_or, Option.some.injEq] at hfind
      subst hfind
      rcases Json.merged_cases (t.find? key) new with ⟨e, n, hold, rfl, heq⟩ | ⟨_, heq⟩
      · rw [heq]
        exact ih key n hincoming (Json.hasUniqueKeys_of_find? ht hold) hnew
      · rwa [heq]

/-! ## Merging twice -/

/-- Merging an object into itself changes nothing. -/
theorem merge_self (hi : (Json.obj i).hasUniqueKeys = true) : merge i i = i := by
  induction i using nested_induction with
  | step i ih =>
    have hnodup := Json.nodup_keys_of_hasUniqueKeys hi
    have hkeys : (merge i i).keys = i.keys := by
      rw [keys_merge hnodup, List.filter_eq_nil_iff.mpr (by simp), List.append_nil]
    refine Fields.ext_find? (nodup_keys_merge hnodup i) hkeys fun key => ?_
    rw [find?_merge hnodup]
    cases hfind : i.find? key with
    | none => rfl
    | some value =>
      rcases Json.merged_cases (some value) value with ⟨e, n, he, rfl, heq⟩ | ⟨_, heq⟩
      · cases he
        have hinner := ih key _ hfind (Json.hasUniqueKeys_of_find? hi hfind)
        simp only [Option.map_some, Option.some_or, heq, hinner]
      · simp only [Option.map_some, Option.some_or, heq]

theorem merged_self {value : Json} (h : value.hasUniqueKeys = true) : merged (some value) value = value := by
  cases value with
  | obj n => exact congrArg Json.obj (merge_self h)
  | _ => rfl

/-- Merging the same object a second time changes nothing. -/
theorem merge_merge_self (ht : (Json.obj t).hasUniqueKeys = true) (hi : (Json.obj i).hasUniqueKeys = true) :
    merge (merge t i) i = merge t i := by
  induction i using nested_induction generalizing t with
  | step i ih =>
    have hnodup := Json.nodup_keys_of_hasUniqueKeys hi
    have hkeys : (merge (merge t i) i).keys = (merge t i).keys := by
      rw [keys_merge hnodup, List.filter_eq_nil_iff.mpr, List.append_nil]
      intro k hk
      simp [mem_keys_merge, hk]
    have hunique := nodup_keys_merge (nodup_keys_merge (Json.nodup_keys_of_hasUniqueKeys ht) i) i
    refine Fields.ext_find? hunique hkeys fun key => ?_
    rw [find?_merge hnodup, find?_merge hnodup]
    cases hfind : i.find? key with
    | none => rfl
    | some new =>
      have hnew := Json.hasUniqueKeys_of_find? hi hfind
      simp only [Option.map_some, Option.some_or, Option.some.injEq]
      rcases Json.merged_cases (t.find? key) new with ⟨e, n, hold, rfl, heq⟩ | ⟨_, heq⟩
      · rw [heq]
        exact congrArg Json.obj (ih key n hfind (Json.hasUniqueKeys_of_find? ht hold) hnew)
      · rw [heq, merged_self hnew]

end Object

/-! ## Paths -/

namespace Json

/-- The value at a path of keys. -/
def at? : List String → Json → Option Json
  | [], value => some value
  | key :: path, .obj fields => (Fields.find? key fields).bind (at? path)
  | _ :: _, _ => none

/-- What a value has at a path: a value that is no object, an object, or nothing, because a key on the way is missing
or because something on the way is no object. -/
inductive Found where
  | value (v : Json)
  | object (o : Object)
  | missing
  | blocked

namespace Found

/-- What is found, if anything. -/
def value? : Found → Option Json
  | .value v => some v
  | .object o => some (.obj o)
  | .missing => none
  | .blocked => none

/-- What is at a place after something has come in, over what was there. -/
def onto (old : Option Json) : Found → Option Json
  | .value v => some v
  | .object o => some (merged old (.obj o))
  | .missing => old
  | .blocked => none

end Found

def seek : List String → Json → Found
  | [], .obj fields => .object fields
  | [], value => .value value
  | key :: path, .obj fields =>
    match Fields.find? key fields with
    | none => .missing
    | some value => seek path value
  | _ :: _, _ => .blocked

theorem at?_eq_seek (path : List String) (v : Json) : v.at? path = (v.seek path).value? := by
  induction path generalizing v with
  | nil => cases v <;> rfl
  | cons key path ih =>
    cases v with
    | obj fields =>
      rw [at?, seek]
      cases Fields.find? key fields with
      | none => rfl
      | some value => exact ih value
    | _ => rfl

theorem seek_append {before : List String} {v w : Json} (h : v.at? before = some w) (rest : List String) :
    v.seek (before ++ rest) = w.seek rest := by
  induction before generalizing v with
  | nil =>
    cases h
    rfl
  | cons key path ih =>
    cases v with
    | obj fields =>
      rw [at?] at h
      rw [List.cons_append, seek]
      cases hfind : Fields.find? key fields with
      | none =>
        rw [hfind] at h
        cases h
      | some value =>
        rw [hfind] at h
        exact ih h
    | _ => cases h

theorem isObject_of_seek {path : List String} {v w : Json} (h : v.seek path = .value w) : w.isObject = false := by
  induction path generalizing v with
  | nil => cases v <;> cases h <;> rfl
  | cons key path ih =>
    cases v with
    | obj fields =>
      rw [seek] at h
      cases hfind : Fields.find? key fields with
      | none =>
        rw [hfind] at h
        cases h
      | some value =>
        rw [hfind] at h
        exact ih h
    | _ => cases h

/-- **What is at a path after a value has come in** is told by what the value has there. -/
theorem at?_merged {new : Json} (hnew : new.hasUniqueKeys = true) (path : List String) (old : Option Json) :
    (merged old new).at? path = (new.seek path).onto (old.bind (at? path)) := by
  induction path generalizing old new with
  | nil =>
    have hold : old.bind (at? []) = old := by cases old <;> rfl
    rw [hold]
    cases new with
    | obj n => rfl
    | _ => rw [merged_of_not_object rfl]; rfl
  | cons key path ih =>
    rcases merged_cases old new with ⟨e, n, rfl, rfl, heq⟩ | ⟨hgives, heq⟩
    · -- Both are objects: what is under the key is merged again.
      rw [heq, at?, seek, Object.find?_merge (nodup_keys_of_hasUniqueKeys hnew)]
      cases hfind : Fields.find? key n with
      | none => rfl
      | some value => exact ih (hasUniqueKeys_of_find? hnew hfind) _
    · rw [heq, at?_eq_seek]
      cases hseek : new.seek (key :: path) with
      | value v => rfl
      | blocked => rfl
      | object o =>
        -- An object that gives way has nothing below it.
        have hnone : ∀ x, old.bind (at? (key :: path)) ≠ some (.obj x) := by
          intro x hx
          obtain ⟨w, rfl, hw⟩ := Option.bind_eq_some_iff.mp hx
          cases w with
          | obj e =>
            cases new with
            | obj n => cases hgives e rfl
            | _ => cases hseek
          | _ => cases hw
        simp only [Found.onto, Found.value?, merged_onto hnone]
      | missing =>
        cases old with
        | none => rfl
        | some w =>
          cases w with
          | obj e =>
            cases new with
            | obj n => cases hgives e rfl
            | _ => cases hseek
          | _ => rfl

end Json

/-! ## Merges by path -/

namespace Object

/-- What an object has at a path. -/
def at? (path : List String) (o : Object) : Option Json := (Json.obj o).at? path

/-- A key on the path is missing. -/
def Misses (o : Object) (path : List String) : Prop :=
  ∃ before key rest inner, path = before ++ key :: rest ∧ o.at? before = some (.obj inner) ∧
    key ∉ Fields.keys inner

/-- Something on the way is no object. -/
def Blocks (o : Object) (path : List String) : Prop :=
  ∃ before rest value, path = before ++ rest ∧ rest ≠ [] ∧ o.at? before = some value ∧ value.isObject = false

/-- The keys of the object at a path, if there is one. -/
def keysAt (path : List String) (o : Object) : List String :=
  match o.at? path with
  | some (.obj inner) => Fields.keys inner
  | _ => []

variable {t i : Object} {path : List String}

theorem seek_of_at? {value : Json} (h : i.at? path = some value) : (Json.obj i).seek path = value.seek [] := by
  have happend := Json.seek_append h []
  rwa [List.append_nil] at happend

theorem Misses.seek (h : i.Misses path) : (Json.obj i).seek path = .missing := by
  obtain ⟨before, key, rest, inner, rfl, hinner, hkey⟩ := h
  rw [Json.seek_append hinner, Json.seek, Fields.find?_eq_none_iff.mpr hkey]

theorem Blocks.seek (h : i.Blocks path) : (Json.obj i).seek path = .blocked := by
  obtain ⟨before, rest, value, rfl, hrest, hvalue, hno⟩ := h
  rw [Json.seek_append hvalue]
  cases rest with
  | nil => exact absurd rfl hrest
  | cons key rest =>
    cases value with
    | obj o => cases hno
    | _ => rfl

/-- At every path there is something, or something in the way, or a key missing. -/
theorem exists_at?_or (o : Object) (path : List String) :
    (∃ value, o.at? path = some value) ∨ o.Blocks path ∨ o.Misses path := by
  induction path generalizing o with
  | nil => exact .inl ⟨.obj o, rfl⟩
  | cons key path ih =>
    cases hfind : o.find? key with
    | none => exact .inr (.inr ⟨[], key, path, o, rfl, rfl, Fields.find?_eq_none_iff.mp hfind⟩)
    | some value =>
      have hbelow : ∀ rest, o.at? (key :: rest) = value.at? rest := by
        intro rest
        simp only [Object.at?, Json.at?, hfind, Option.bind_some]
      cases value with
      | obj inner =>
        rcases ih inner with ⟨w, hw⟩ | ⟨before, rest, w, rfl, hrest, hw, hno⟩ | ⟨before, k, rest, e, rfl, he, hk⟩
        · exact .inl ⟨w, (hbelow path).trans hw⟩
        · exact .inr (.inl ⟨key :: before, rest, w, rfl, hrest, (hbelow before).trans hw, hno⟩)
        · exact .inr (.inr ⟨key :: before, k, rest, e, rfl, (hbelow before).trans he, hk⟩)
      | _ =>
        cases path with
        | nil => exact .inl ⟨_, hbelow []⟩
        | cons k rest => exact .inr (.inl ⟨[key], k :: rest, _, rfl, by simp, hbelow [], rfl⟩)

theorem hasUniqueKeys_of_at? {value : Json} (hi : (Json.obj i).hasUniqueKeys = true) (h : i.at? path = some value) :
    value.hasUniqueKeys = true := by
  have hpath : ∀ (path : List String) {v : Json}, v.hasUniqueKeys = true → v.at? path = some value →
      value.hasUniqueKeys = true := by
    intro path
    induction path with
    | nil =>
      intro v hv h
      cases h
      exact hv
    | cons key path ih =>
      intro v hv h
      cases v with
      | obj fields =>
        obtain ⟨w, hfind, h⟩ := Option.bind_eq_some_iff.mp h
        exact ih (Json.hasUniqueKeys_of_find? hv hfind) h
      | _ => cases h
  exact hpath path hi h

theorem at?_merge (hi : (Json.obj i).hasUniqueKeys = true) (t : Object) (path : List String) :
    (merge t i).at? path = ((Json.obj i).seek path).onto (t.at? path) :=
  Json.at?_merged hi path (some (.obj t))

/-- At every level, the keys of the target come first and then the new ones. -/
theorem keys_at_merge (hi : (Json.obj i).hasUniqueKeys = true) {m : Object}
    (hm : (merge t i).at? path = some (.obj m)) :
    m.keys = t.keysAt path ++ (i.keysAt path).filter (· ∉ t.keysAt path) := by
  have hfound : i.at? path = ((Json.obj i).seek path).value? := Json.at?_eq_seek path _
  rw [at?_merge hi] at hm
  cases hseek : (Json.obj i).seek path with
  | value v =>
    rw [hseek] at hm
    cases hm
    cases Json.isObject_of_seek hseek
  | blocked =>
    rw [hseek] at hm
    cases hm
  | missing =>
    rw [hseek] at hm hfound
    have ht : t.at? path = some (.obj m) := hm
    simp [keysAt, hfound, ht, Json.Found.value?]
  | object o =>
    rw [hseek] at hm hfound
    have hincoming : i.keysAt path = o.keys := by simp [keysAt, hfound, Json.Found.value?]
    rw [hincoming]
    have hm : Json.merged (t.at? path) (.obj o) = .obj m := Option.some.inj hm
    rcases Json.merged_cases (t.at? path) (.obj o) with ⟨e, n, he, hn, heq⟩ | ⟨hgives, heq⟩
    · cases hn
      cases heq.symm.trans hm
      have hnodup := Json.nodup_keys_of_hasUniqueKeys (hasUniqueKeys_of_at? hi hfound)
      simp [keysAt, he, keys_merge hnodup]
    · cases heq.symm.trans hm
      have htarget : t.keysAt path = [] := by
        unfold keysAt
        split
        · rename_i e he
          cases hgives e he
        · rfl
      rw [htarget, List.nil_append, List.filter_eq_self.mpr (by simp)]

/-- **Deep merge, path by path.** At a path where the incoming object has a value that is no object, that value stands;
below such a value nothing does. Where it has an object, the merge has it, merged with the object of the target if there
is one. Where one of its keys is missing, the merge has what the target has. At every level the keys of the target come
first, in their order, and then the new ones in theirs; no key is repeated, and merging again changes nothing. -/
theorem merge_by_path (ht : (Json.obj t).hasUniqueKeys = true) (hi : (Json.obj i).hasUniqueKeys = true) :
    (∀ path,
      ((∃ value, i.at? path = some value) ∨ i.Blocks path ∨ i.Misses path) ∧
      (∀ value, i.at? path = some value → value.isObject = false → (merge t i).at? path = some value) ∧
      (i.Blocks path → (merge t i).at? path = none) ∧
      (∀ inner, i.at? path = some (.obj inner) →
        (∀ existing, t.at? path = some (.obj existing) →
          (merge t i).at? path = some (.obj (merge existing inner))) ∧
        ((∀ existing, t.at? path ≠ some (.obj existing)) → (merge t i).at? path = some (.obj inner))) ∧
      (i.Misses path → (merge t i).at? path = t.at? path)) ∧
    (∀ path m, (merge t i).at? path = some (.obj m) →
      Fields.keys m = t.keysAt path ++ (i.keysAt path).filter (· ∉ t.keysAt path)) ∧
    (Json.obj (merge t i)).hasUniqueKeys = true ∧
    merge (merge t i) i = merge t i := by
  refine ⟨fun path => ⟨exists_at?_or i path, ?_, ?_, ?_, ?_⟩, fun path m hm => keys_at_merge hi hm,
    hasUniqueKeys_merge ht hi, merge_merge_self ht hi⟩
  · intro value hvalue hno
    rw [at?_merge hi, seek_of_at? hvalue]
    cases value with
    | obj inner => cases hno
    | _ => rfl
  · intro hblocks
    rw [at?_merge hi, hblocks.seek]
    rfl
  · intro inner hinner
    rw [at?_merge hi, seek_of_at? hinner]
    constructor
    · intro existing hexisting
      rw [hexisting]
      rfl
    · intro hnone
      exact congrArg some (Json.merged_onto hnone _)
  · intro hmisses
    rw [at?_merge hi, hmisses.seek]
    rfl

/-- A document and what comes in: an object in place of a text, a number in place of an object, and an object for an
object. -/
def original : Object :=
  [("title", .str "A"), ("meta", .obj [("pages", .int 10), ("tags", .single "sf" (.bool true))]),
    ("author", .single "name" (.str "Ann"))]

def revision : Object :=
  [("meta", .obj [("year", .int 1969), ("tags", .int 5)]), ("author", .single "name" (.single "last" (.str "Lee"))),
    ("isbn", .null)]

theorem merge_by_path_revision :
    (Json.obj original).hasUniqueKeys = true ∧ (Json.obj revision).hasUniqueKeys = true ∧
    (merge original revision).at? ["meta", "tags"] = some (.int 5) ∧
    (merge original revision).at? ["meta", "tags", "sf"] = none ∧
    (merge original revision).at? ["author"] =
      some (.obj (merge [("name", .str "Ann")] [("name", .single "last" (.str "Lee"))])) ∧
    (merge original revision).at? ["author", "name"] = some (.single "last" (.str "Lee")) ∧
    (merge original revision).at? ["meta", "pages"] = some (.int 10) ∧
    (merge original revision).keys = ["title", "meta", "author", "isbn"] ∧
    merge (merge original revision) revision = merge original revision := by
  have horiginal : (Json.obj original).hasUniqueKeys = true := by decide +kernel
  have hrevision : (Json.obj revision).hasUniqueKeys = true := by decide +kernel
  obtain ⟨hpath, hkeys, _, htwice⟩ := merge_by_path horiginal hrevision
  have hblocks : revision.Blocks ["meta", "tags", "sf"] :=
    ⟨["meta", "tags"], ["sf"], .int 5, rfl, by simp, by decide +kernel, rfl⟩
  have hmisses : revision.Misses ["meta", "pages"] :=
    ⟨["meta"], "pages", [], [("year", .int 1969), ("tags", .int 5)], rfl, by decide +kernel, by decide +kernel⟩
  have hname : original.at? ["author", "name"] = some (.str "Ann") := by decide +kernel
  refine ⟨horiginal, hrevision, ?_, ?_, ?_, ?_, ?_, ?_, htwice⟩
  · exact (hpath ["meta", "tags"]).2.1 (.int 5) (by decide +kernel) rfl
  · exact (hpath ["meta", "tags", "sf"]).2.2.1 hblocks
  · exact ((hpath ["author"]).2.2.2.1 _ (by decide +kernel)).1 _ (by decide +kernel)
  · refine ((hpath ["author", "name"]).2.2.2.1 _ (by decide +kernel)).2 fun existing h => ?_
    rw [hname] at h
    cases h
  · exact ((hpath ["meta", "pages"]).2.2.2.2 hmisses).trans (by decide +kernel)
  · exact (hkeys [] _ rfl).trans (by decide +kernel)

end Object

end DocQuery
