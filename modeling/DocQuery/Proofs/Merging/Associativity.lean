import DocQuery.Proofs.Merging.Paths
import Mathlib.Data.Finset.Dedup
import Mathlib.Data.Fintype.EquivFin
import Mathlib.Data.List.Induction

/-!
# Merging one by one or together

Objects can be merged into a target one by one, or put together first. The two differ where an object of the target is
*revived*: where one of the objects has something else at its path and a later one has an object again. One by one, the
later object stands alone; put together, what was in between is forgotten, and the object of the target comes back.

That is the only way in which the two differ (`Object.mergeAll_eq_iff`). The proof goes key by key: what comes in under a
key is a list of values (`Json.putAll`), and if all of them are objects, the question is the same one level deeper. For
two objects this says when merging is associative (`Object.merge_assoc_iff`).
-/

namespace DocQuery

/-! ## Values under a key -/

namespace Json

/-- What stands under a key after values have come in, one by one. -/
def putAll (old : Option Json) (vs : List Json) : Option Json := vs.foldl (fun old v => some (merged old v)) old

/-- What stands under a key after the values have been put together and come in at once. -/
def putTogether (old : Option Json) (vs : List Json) : Option Json := ((putAll none vs).map (merged old)).or old

/-- At some path there is an object, one of the values has something else there, and together they have an object that
lacks a part of the first. -/
def Revives (old : Option Json) (vs : List Json) : Prop :=
  ∃ path x u y, old.bind (Json.at? path) = some (.obj x) ∧ (∃ v ∈ vs, v.at? path = some u) ∧ u.isObject = false ∧
    (putAll none vs).bind (Json.at? path) = some (.obj y) ∧ Object.merge x y ≠ y

variable {old : Option Json} {v : Json} {vs : List Json}

theorem at?_ne_obj (h : v.isObject = false) (path : List String) (y : Object) : v.at? path ≠ some (.obj y) := by
  intro hy
  cases v with
  | obj o => cases h
  | _ => cases path <;> cases hy

theorem exists_putAll (old : Option Json) (hne : vs ≠ []) : ∃ w, putAll old vs = some w := by
  obtain ⟨vs, v, rfl⟩ := List.eq_nil_or_concat vs |>.resolve_left hne
  exact ⟨merged (putAll old vs) v, by simp [putAll]⟩

theorem putTogether_eq {w : Json} (h : putAll none vs = some w) : putTogether old vs = some (merged old w) := by
  rw [putTogether, h]
  rfl

/-- Values that come in where no object is stand as if nothing had been there. -/
theorem putAll_onto (h : ∀ e, old ≠ some (.obj e)) : putAll old vs = putTogether old vs := by
  cases vs with
  | nil => rfl
  | cons v vs =>
    obtain ⟨w, hw⟩ := exists_putAll none (List.cons_ne_nil v vs)
    have hput : putAll old (v :: vs) = putAll none (v :: vs) := by
      show putAll (some (merged old v)) vs = putAll (some v) vs
      rw [merged_onto h]
    rw [putTogether_eq hw, merged_onto h, hput, hw]

/-- Of what was there before a value that is no object, nothing is left. -/
theorem putAll_overwritten (hv : v ∈ vs) (hno : v.isObject = false) : putAll old vs = putAll none vs := by
  obtain ⟨before, after, rfl⟩ := List.append_of_mem hv
  simp only [putAll, List.foldl_append, List.foldl_cons, merged_of_not_object hno]

theorem hasUniqueKeys_merged {new : Json} (hold : ∀ w ∈ old, w.hasUniqueKeys = true) (hnew : new.hasUniqueKeys = true) :
    (merged old new).hasUniqueKeys = true := by
  rcases merged_cases old new with ⟨e, n, rfl, rfl, heq⟩ | ⟨_, heq⟩
  · rw [heq]
    exact Object.hasUniqueKeys_merge (hold _ rfl) hnew
  · rwa [heq]

theorem hasUniqueKeys_putAll (hold : ∀ w ∈ old, w.hasUniqueKeys = true) (hvs : ∀ v ∈ vs, v.hasUniqueKeys = true) :
    ∀ w ∈ putAll old vs, w.hasUniqueKeys = true := by
  induction vs generalizing old with
  | nil => exact hold
  | cons v vs ih =>
    obtain ⟨hv, hvs⟩ := List.forall_mem_cons.mp hvs
    refine ih ?_ hvs
    rintro w ⟨⟩
    exact hasUniqueKeys_merged hold hv

/-- If one of the values is no object, an object that was there comes back with whatever follows. -/
theorem putAll_eq_iff_of_overwritten {t : Object} (hvs : ∀ v ∈ vs, v.hasUniqueKeys = true) (hv : v ∈ vs)
    (hno : v.isObject = false) :
    putAll (some (.obj t)) vs = putTogether (some (.obj t)) vs ↔ ¬ Revives (some (.obj t)) vs := by
  obtain ⟨w, hw⟩ := exists_putAll none (List.ne_nil_of_mem hv)
  rw [putAll_overwritten hv hno, putTogether_eq hw, hw, Option.some.injEq]
  by_cases hobject : w.isObject = false
  · rw [merged_of_not_object hobject]
    refine ⟨fun _ => ?_, fun _ => rfl⟩
    rintro ⟨path, x, u, y, _, _, _, hy, _⟩
    rw [hw] at hy
    exact at?_ne_obj hobject path y hy
  · cases w with
    | obj y =>
      have hunique : (Json.obj y).hasUniqueKeys = true := hasUniqueKeys_putAll (by simp) hvs _ hw
      constructor
      · -- Where the two agree at the top, they agree at every path.
        rintro heq ⟨path, x, u, y', hx, _, _, hy, hne⟩
        rw [hw] at hy
        have hpath := at?_merged hunique path (some (.obj t))
        rw [← heq, Object.seek_of_at? hy, hx] at hpath
        have hmerged := hy.symm.trans hpath
        exact hne (by simpa [seek, Found.onto, merged] using hmerged.symm)
      · intro hnot
        by_contra hne
        refine hnot ⟨[], t, v, y, rfl, ⟨v, hv, rfl⟩, hno, by rw [hw]; rfl, fun heq => hne ?_⟩
        exact congrArg Json.obj heq.symm
    | _ => exact absurd rfl hobject

end Json

/-! ## Objects -/

namespace Object

open Json (putAll putTogether)

variable {t i j : Object} {os : List Object}

/-- Merges objects into a target, one by one. -/
def mergeAll (t : Object) (os : List Object) : Object := os.foldl merge t

/-- What objects have under a key. -/
def valuesAt (key : String) (os : List Object) : List Json := os.filterMap (Fields.find? key)

theorem nil_merge (h : i.keys.Nodup) : merge [] i = i := by
  rw [merge_of_disjoint h fun _ _ => rfl, List.nil_append]

theorem putAll_obj (t : Object) (os : List Object) :
    putAll (some (.obj t)) (os.map .obj) = some (.obj (mergeAll t os)) := by
  induction os generalizing t with
  | nil => rfl
  | cons o os ih => exact ih (merge t o)

theorem putAll_none_obj (hne : os ≠ []) (hos : ∀ o ∈ os, o.keys.Nodup) :
    putAll none (os.map .obj) = some (.obj (mergeAll [] os)) := by
  cases os with
  | nil => exact absurd rfl hne
  | cons o os =>
    have hfirst : mergeAll [] (o :: os) = mergeAll o os := by
      rw [mergeAll, List.foldl_cons, nil_merge (hos o List.mem_cons_self)]
      rfl
    rw [hfirst]
    exact putAll_obj o os

/-- **Merges go key by key.** -/
theorem find?_mergeAll (hos : ∀ o ∈ os, o.keys.Nodup) (t : Object) (key : String) :
    (mergeAll t os).find? key = putAll (t.find? key) (valuesAt key os) := by
  induction os generalizing t with
  | nil => rfl
  | cons o os ih =>
    obtain ⟨ho, hos⟩ := List.forall_mem_cons.mp hos
    show (mergeAll (merge t o) os).find? key = _
    rw [ih hos, find?_merge ho, valuesAt, valuesAt, List.filterMap_cons]
    cases o.find? key <;> rfl

theorem keys_merge_assoc (hi : i.keys.Nodup) (hj : j.keys.Nodup) :
    (merge t (merge i j)).keys = (merge (merge t i) j).keys := by
  rw [keys_merge (nodup_keys_merge hi j), keys_merge hj, keys_merge hj, keys_merge hi, List.filter_append,
    List.append_assoc, List.filter_filter]
  congr 2
  refine List.filter_congr fun key _ => ?_
  by_cases hk : key ∈ t.keys <;> simp [hk]

theorem nodup_keys_mergeAll (ht : t.keys.Nodup) (os : List Object) : (mergeAll t os).keys.Nodup := by
  induction os generalizing t with
  | nil => exact ht
  | cons o os ih => exact ih (nodup_keys_merge ht o)

/-- The keys are the same in any case. -/
theorem keys_mergeAll (hos : ∀ o ∈ os, o.keys.Nodup) (t : Object) :
    (mergeAll t os).keys = (merge t (mergeAll [] os)).keys := by
  induction os using List.reverseRecOn with
  | nil => rfl
  | append_singleton os o ih =>
    obtain ⟨hos, ho⟩ := List.forall_mem_append.mp hos
    have ho := ho o (List.mem_singleton_self o)
    have hlast : ∀ t, mergeAll t (os ++ [o]) = merge (mergeAll t os) o := fun t => by simp [mergeAll]
    rw [hlast, hlast, keys_merge_assoc (nodup_keys_mergeAll (t := []) List.nodup_nil os) ho, keys_merge ho,
      keys_merge ho, ih hos]

/-- So it is what stands under each of them that decides. -/
theorem mergeAll_eq_iff_forall (ht : t.keys.Nodup) (hos : ∀ o ∈ os, o.keys.Nodup) :
    mergeAll t os = merge t (mergeAll [] os) ↔
      ∀ key, putAll (t.find? key) (valuesAt key os) = putTogether (t.find? key) (valuesAt key os) := by
  have hkey : ∀ key, putTogether (t.find? key) (valuesAt key os) = (merge t (mergeAll [] os)).find? key := by
    intro key
    rw [find?_merge (nodup_keys_mergeAll (t := []) List.nodup_nil os), find?_mergeAll hos []]
    rfl
  constructor
  · intro heq key
    rw [← find?_mergeAll hos, heq, hkey]
  · intro hall
    refine Fields.ext_find? (nodup_keys_mergeAll ht os) (keys_mergeAll hos t) fun key => ?_
    rw [find?_mergeAll hos, hall key, hkey]

/-- Among objects, it is under some key that an object is revived. -/
theorem revives_iff_exists (hos : ∀ o ∈ os, o.keys.Nodup) :
    Json.Revives (some (.obj t)) (os.map .obj) ↔ ∃ key, Json.Revives (t.find? key) (valuesAt key os) := by
  have hbelow : ∀ (hne : os ≠ []) (key : String) (path : List String),
      (putAll none (os.map .obj)).bind (Json.at? (key :: path)) =
        (putAll none (valuesAt key os)).bind (Json.at? path) := by
    intro hne key path
    rw [putAll_none_obj hne hos]
    show ((mergeAll [] os).find? key).bind (Json.at? path) = _
    rw [find?_mergeAll hos]
    rfl
  constructor
  · rintro ⟨path, x, u, y, hx, ⟨v, hv, hu⟩, hno, hy, hne⟩
    obtain ⟨o, ho, rfl⟩ := List.mem_map.mp hv
    cases path with
    | nil =>
      cases hu
      cases hno
    | cons key path =>
      obtain ⟨w, hw, hu⟩ := Option.bind_eq_some_iff.mp hu
      rw [hbelow (List.ne_nil_of_mem ho)] at hy
      exact ⟨key, path, x, u, y, hx, ⟨w, List.mem_filterMap.mpr ⟨o, ho, hw⟩, hu⟩, hno, hy, hne⟩
  · rintro ⟨key, path, x, u, y, hx, ⟨w, hw, hu⟩, hno, hy, hne⟩
    obtain ⟨o, ho, hw⟩ := List.mem_filterMap.mp hw
    rw [← hbelow (List.ne_nil_of_mem ho)] at hy
    refine ⟨key :: path, x, u, y, hx, ⟨.obj o, List.mem_map_of_mem ho, ?_⟩, hno, hy, hne⟩
    simp only [Json.at?, hw, Option.bind_some, hu]

/-- What is known under each key is known of the objects. -/
theorem mergeAll_eq_iff_of_keys (ht : t.keys.Nodup) (hos : ∀ o ∈ os, o.keys.Nodup)
    (hkey : ∀ key, putAll (t.find? key) (valuesAt key os) = putTogether (t.find? key) (valuesAt key os) ↔
      ¬ Json.Revives (t.find? key) (valuesAt key os)) :
    mergeAll t os = merge t (mergeAll [] os) ↔ ¬ Json.Revives (some (.obj t)) (os.map .obj) := by
  rw [mergeAll_eq_iff_forall ht hos, revives_iff_exists hos, not_exists]
  exact forall_congr' hkey

theorem hasUniqueKeys_valuesAt (hos : ∀ o ∈ os, (Json.obj o).hasUniqueKeys = true) (key : String) :
    ∀ v ∈ valuesAt key os, v.hasUniqueKeys = true := by
  intro v hv
  obtain ⟨o, ho, hfind⟩ := List.mem_filterMap.mp hv
  exact Json.hasUniqueKeys_of_find? (hos o ho) hfind

theorem sizeOf_valuesAt {n : Nat} (hn : ∀ o ∈ os, sizeOf (Json.obj o) < n + 1) (key : String) :
    ∀ v ∈ valuesAt key os, sizeOf v < n := by
  intro v hv
  obtain ⟨o, ho, hfind⟩ := List.mem_filterMap.mp hv
  have hsize := hn o ho
  have hmem := List.sizeOf_lt_of_mem (Fields.mem_of_find? hfind)
  simp only [Prod.mk.sizeOf_spec, Json.obj.sizeOf_spec] at hmem hsize
  omega

end Object

namespace Json

variable {old : Option Json} {vs : List Json}

theorem not_revives_nil : ¬ Revives old [] := by
  rintro ⟨path, x, u, y, _, ⟨v, hv, _⟩, _⟩
  cases hv

theorem not_revives_onto (h : ∀ e, old ≠ some (.obj e)) : ¬ Revives old vs := by
  rintro ⟨path, x, u, y, hx, _⟩
  obtain ⟨w, rfl, hw⟩ := Option.bind_eq_some_iff.mp hx
  cases w with
  | obj e => exact h e rfl
  | _ => exact at?_ne_obj rfl path x hw

theorem exists_eq_map_obj (h : ∀ v ∈ vs, v.isObject ≠ false) : ∃ os : List Object, vs = os.map .obj := by
  induction vs with
  | nil => exact ⟨[], rfl⟩
  | cons v vs ih =>
    obtain ⟨hv, hvs⟩ := List.forall_mem_cons.mp h
    obtain ⟨os, rfl⟩ := ih hvs
    cases v with
    | obj o => exact ⟨o :: os, rfl⟩
    | _ => exact absurd rfl hv

/-- **Values one by one or together**: the two agree exactly if no object is revived. -/
theorem putAll_eq_iff (hold : ∀ w ∈ old, w.hasUniqueKeys = true) (hvs : ∀ v ∈ vs, v.hasUniqueKeys = true) :
    putAll old vs = putTogether old vs ↔ ¬ Revives old vs := by
  -- The induction is on a bound for the values, which gets smaller under each key.
  obtain ⟨n, hn⟩ : ∃ n, ∀ v ∈ vs, sizeOf v < n := ⟨sizeOf vs, fun v hv => List.sizeOf_lt_of_mem hv⟩
  induction n generalizing old vs with
  | zero =>
    obtain rfl : vs = [] := List.eq_nil_iff_forall_not_mem.mpr fun v hv => Nat.not_lt_zero _ (hn v hv)
    exact ⟨fun _ => not_revives_nil, fun _ => rfl⟩
  | succ n ih =>
    by_cases hobject : ∃ t, old = some (.obj t)
    · obtain ⟨t, rfl⟩ := hobject
      by_cases hall : ∀ v ∈ vs, v.isObject ≠ false
      · obtain ⟨os, rfl⟩ := exists_eq_map_obj hall
        rw [List.forall_mem_map] at hvs hn
        have ht : (Json.obj t).hasUniqueKeys = true := hold _ rfl
        have hos : ∀ o ∈ os, o.keys.Nodup := fun o ho => nodup_keys_of_hasUniqueKeys (hvs o ho)
        cases os with
        | nil => exact ⟨fun _ => not_revives_nil, fun _ => rfl⟩
        | cons o os =>
          rw [Object.putAll_obj, putTogether_eq (Object.putAll_none_obj (List.cons_ne_nil o os) hos), merged,
            Option.some.injEq, Json.obj.injEq]
          refine Object.mergeAll_eq_iff_of_keys (nodup_keys_of_hasUniqueKeys ht) hos fun key => ?_
          exact ih (fun w hw => hasUniqueKeys_of_find? ht hw) (Object.hasUniqueKeys_valuesAt hvs key)
            (Object.sizeOf_valuesAt hn key)
      · simp only [not_forall, not_not] at hall
        obtain ⟨v, hv, hno⟩ := hall
        exact putAll_eq_iff_of_overwritten hvs hv hno
    · have honto : ∀ e, old ≠ some (.obj e) := fun e he => hobject ⟨e, he⟩
      exact ⟨fun _ => not_revives_onto honto, fun _ => putAll_onto honto⟩

end Json

namespace Object

variable {t i j : Object} {os : List Object}

/-- At some path the target has an object, one of the others has something else, and together they have an object that
lacks a part of the first. -/
def RevivedBy (t : Object) (os : List Object) : Prop :=
  ∃ path x u y, t.at? path = some (.obj x) ∧ (∃ o ∈ os, o.at? path = some u) ∧ u.isObject = false ∧
    (mergeAll [] os).at? path = some (.obj y) ∧ merge x y ≠ y

theorem revives_obj_iff (hos : ∀ o ∈ os, o.keys.Nodup) :
    Json.Revives (some (.obj t)) (os.map .obj) ↔ t.RevivedBy os := by
  cases os with
  | nil => exact ⟨fun h => absurd h Json.not_revives_nil, fun ⟨_, _, _, _, _, ⟨_, ho, _⟩, _⟩ => by cases ho⟩
  | cons o os =>
    have htogether := putAll_none_obj (List.cons_ne_nil o os) hos
    simp only [Json.Revives, htogether, List.mem_map, exists_exists_and_eq_and]
    rfl

/-- **When objects can be put together first**: exactly if no object of the target is revived. -/
theorem mergeAll_eq_iff (ht : (Json.obj t).hasUniqueKeys = true) (hos : ∀ o ∈ os, (Json.obj o).hasUniqueKeys = true) :
    mergeAll t os = merge t (mergeAll [] os) ↔ ¬ t.RevivedBy os := by
  have hnodup : ∀ o ∈ os, o.keys.Nodup := fun o ho => Json.nodup_keys_of_hasUniqueKeys (hos o ho)
  rw [← revives_obj_iff hnodup]
  refine mergeAll_eq_iff_of_keys (Json.nodup_keys_of_hasUniqueKeys ht) hnodup fun key => ?_
  exact Json.putAll_eq_iff (fun w hw => Json.hasUniqueKeys_of_find? ht hw) (hasUniqueKeys_valuesAt hos key)

/-- At some path there is an object, then a value that is no object, and then an object that lacks a part of the
first. -/
def Revives (t i j : Object) : Prop :=
  ∃ path x u y, t.at? path = some (.obj x) ∧ i.at? path = some u ∧ u.isObject = false ∧
    j.at? path = some (.obj y) ∧ merge x y ≠ y

theorem revivedBy_pair_iff (hi : i.keys.Nodup) (hj : (Json.obj j).hasUniqueKeys = true) :
    t.RevivedBy [i, j] ↔ Revives t i j := by
  have htogether : ∀ path, (mergeAll [] [i, j]).at? path = ((Json.obj j).seek path).onto (i.at? path) := by
    intro path
    show (merge (merge [] i) j).at? path = _
    rw [nil_merge hi, at?_merge hj]
  constructor
  · rintro ⟨path, x, u, y, hx, ⟨o, ho, hu⟩, hno, hy, hne⟩
    rw [htogether] at hy
    have honto : ∀ e, some u ≠ some (.obj e) := fun e he => Json.at?_ne_obj hno [] e he
    rcases List.mem_pair.mp ho with rfl | rfl
    · -- The object that the two have together is that of the second.
      rw [hu] at hy
      have hfound : j.at? path = ((Json.obj j).seek path).value? := Json.at?_eq_seek path _
      refine ⟨path, x, u, y, hx, hu, hno, hfound.trans ?_, hne⟩
      cases hseek : (Json.obj j).seek path with
      | object o =>
        rw [hseek, Json.Found.onto, Json.merged_onto honto] at hy
        exact hy
      | value v =>
        rw [hseek] at hy
        exact hy
      | missing =>
        rw [hseek] at hy
        exact absurd hy (honto y)
      | blocked =>
        rw [hseek] at hy
        cases hy
    · rw [seek_of_at? hu] at hy
      cases u with
      | obj o => cases hno
      | _ => cases hy
  · rintro ⟨path, x, u, y, hx, hu, hno, hy, hne⟩
    refine ⟨path, x, u, y, hx, ⟨i, List.mem_cons_self, hu⟩, hno, ?_, hne⟩
    rw [htogether, seek_of_at? hy, hu]
    exact congrArg some (Json.merged_onto (fun e he => Json.at?_ne_obj hno [] e he) _)

/-- **When merging is associative**: exactly if no object of the target is revived. -/
theorem merge_assoc_iff (ht : (Json.obj t).hasUniqueKeys = true) (hi : (Json.obj i).hasUniqueKeys = true)
    (hj : (Json.obj j).hasUniqueKeys = true) :
    merge t (merge i j) = merge (merge t i) j ↔ ¬ Revives t i j := by
  have hnodup := Json.nodup_keys_of_hasUniqueKeys hi
  have htogether : mergeAll [] [i, j] = merge i j := congrArg (merge · j) (nil_merge hnodup)
  rw [← revivedBy_pair_iff hnodup hj, ← mergeAll_eq_iff ht (by simp [hi, hj]), htogether, eq_comm]
  rfl

/-- An object with one path, that leads to the given object. -/
def alongPath : List String → Object → Object
  | [], inner => inner
  | key :: path, inner => [(key, .obj (alongPath path inner))]

theorem at?_alongPath (path : List String) (inner : Object) : (alongPath path inner).at? path = some (.obj inner) := by
  induction path with
  | nil => rfl
  | cons key path ih =>
    simp only [alongPath, at?, Json.at?, Fields.find?, ↓reduceIte, Option.bind_some]
    exact ih

theorem hasUniqueKeys_alongPath (path : List String) {inner : Object} (h : (Json.obj inner).hasUniqueKeys = true) :
    (Json.obj (alongPath path inner)).hasUniqueKeys = true := by
  induction path with
  | nil => exact h
  | cons key path ih => exact Json.hasUniqueKeys_single key ih

/-- **When merging is associative in every target**: exactly if at no path a value that is no object is followed by
an object. -/
theorem forall_merge_assoc_iff (hi : (Json.obj i).hasUniqueKeys = true) (hj : (Json.obj j).hasUniqueKeys = true) :
    (∀ t : Object, (Json.obj t).hasUniqueKeys = true → merge t (merge i j) = merge (merge t i) j) ↔
      ∀ path u y, i.at? path = some u → u.isObject = false → j.at? path ≠ some (.obj y) := by
  constructor
  · intro hassoc path u y hu hno hy
    -- A target that has a key of its own at that path.
    obtain ⟨key, hkey⟩ := Infinite.exists_notMem_finset (Fields.keys y).toFinset
    let inner : Object := [(key, .null)]
    have hinner : (Json.obj inner).hasUniqueKeys = true := rfl
    have ht := hasUniqueKeys_alongPath path hinner
    have hrevives := (merge_assoc_iff ht hi hj).mp (hassoc (alongPath path inner) ht)
    refine hrevives ⟨path, inner, u, y, at?_alongPath path inner, hu, hno, hy, ?_⟩
    intro heq
    have hmem : key ∈ Fields.keys (merge inner y) := mem_keys_merge.mpr (.inl (by simp [inner, Fields.keys]))
    rw [heq] at hmem
    exact hkey (by simpa using hmem)
  · intro hnone t ht
    rw [merge_assoc_iff ht hi hj]
    rintro ⟨path, x, u, y, _, hu, hno, hy, _⟩
    exact hnone path u y hu hno hy

end Object

end DocQuery
