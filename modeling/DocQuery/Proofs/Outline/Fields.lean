import DocQuery.Proofs.Outline.Statements
import DocQuery.Query.Document
import Mathlib.Data.List.Basic

/-!
# The fields of a compiled query

What the statements of a tree leave in each field of the outline, said on the list of statements alone. A field with room
for one thing has what was stated last (`foldl_overwrite`), and a field that collects has all that was stated, in the
order of the document (`foldl_collect`).
-/

namespace DocQuery

/-! ## Folds -/

section Folds

variable {σ α β γ : Type} {step : σ → α → σ}

/-- What a step may overwrite is in the end as it was written last. -/
theorem foldl_overwrite {view : σ → β} {write : α → Option β}
    (h : ∀ s x, view (step s x) = (write x).getD (view s)) (xs : List α) (s : σ) :
    view (xs.foldl step s) = (xs.filterMap write).getLast?.getD (view s) := by
  induction xs generalizing s with
  | nil => rfl
  | cons x xs ih =>
    rw [List.foldl_cons, ih, h, List.filterMap_cons]
    cases write x with
    | none => rfl
    | some b => rw [Option.getD_some, List.getLast?_cons, Option.getD_some]

/-- What a step may add to holds in the end all that was added. -/
theorem foldl_collect {view : σ → γ} {items : α → List β} {add : γ → β → γ}
    (h : ∀ s x, view (step s x) = (items x).foldl add (view s)) (xs : List α) (s : σ) :
    view (xs.foldl step s) = (xs.flatMap items).foldl add (view s) := by
  induction xs generalizing s with
  | nil => rfl
  | cons x xs ih => rw [List.foldl_cons, ih, h, List.flatMap_cons, List.foldl_append]

theorem foldl_concat (xs ys : List α) : ys.foldl (fun xs y => xs ++ [y]) xs = xs ++ ys := by
  induction ys generalizing xs with
  | nil => simp
  | cons y ys ih => rw [List.foldl_cons, ih, List.append_assoc, List.singleton_append]

end Folds

/-! ## Stages -/

/-- Inserting what is there changes nothing. -/
theorem Fields.insert_of_find? {α : Type} {fields : Fields α} {key : String} {value : α}
    (h : fields.find? key = some value) : fields.insert key value = fields := by
  obtain ⟨before, after, hsplit, hinsert⟩ := exists_split_of_find? h
  rw [hinsert, ← hsplit]

theorem Fields.find?_map {α : Type} (f : String → α) {names : List String} {name : String} (h : name ∈ names) :
    Fields.find? name (names.map fun n => (n, f n)) = some (f name) := by
  induction names with
  | nil => cases h
  | cons n names ih =>
    by_cases hn : n = name
    · subst hn
      simp [find?]
    · have hmem : name ∈ names := (List.mem_cons.mp h).resolve_left (Ne.symm hn)
      simp [find?, hn, ih hmem]

/-- Fields that are given by their keys: each key once, where it comes first. -/
theorem Fields.ofList_map {α : Type} (f : String → α) (names : List String) :
    Fields.ofList (names.map fun n => (n, f n)) = names.eraseDups.map fun n => (n, f n) := by
  have run : ∀ (names seen : List String),
      Fields.insertAll (seen.eraseDups.map fun n => (n, f n)) (names.map fun n => (n, f n)) =
        (seen ++ names).eraseDups.map fun n => (n, f n) := by
    intro names
    induction names with
    | nil => intro seen; simp [insertAll]
    | cons name names ih =>
      intro seen
      have hinsert : Fields.insert name (f name) (seen.eraseDups.map fun n => (n, f n)) =
          (seen ++ [name]).eraseDups.map fun n => (n, f n) := by
        rw [eraseDups_concat]
        by_cases hname : name ∈ seen
        · rw [if_pos hname]
          exact insert_of_find? (find?_map f (List.mem_eraseDups.mpr hname))
        · rw [if_neg hname, insert_of_find?_none, List.map_append]
          · rfl
          · rw [find?_eq_none_iff]
            simpa [keys, Function.comp_def] using hname
      rw [List.map_cons, insertAll_cons, hinsert, ih, List.append_assoc]
      rfl
  exact run names []

/-! ## What a statement leaves in each field -/

namespace Statement

/-- The kind of statement that is asked for. A projection asks for none. -/
def kind? : Statement → Option StatementKind
  | .delete => some .remove
  | .insert _ => some .insert
  | .update _ => some .update
  | .count _ => some .count
  | .distinct _ => some .distinct
  | .group _ _ => some .aggregate
  | _ => none

def collection? : Statement → Option String
  | .collection name => some name
  | _ => none

def limit? : Statement → Option Nat
  | .limit rows => some rows
  | _ => none

def skip? : Statement → Option Nat
  | .skip rows => some rows
  | _ => none

def selected : Statement → List String
  | .select names => names
  | _ => []

def sorting? : Statement → Option (String × Direction)
  | .sort attr direction => some (attr, direction)
  | _ => none

def counted : Statement → List String
  | .count names => names
  | _ => []

/-- The attribute whose values are asked for. -/
def key? : Statement → Option String
  | .distinct name => some name
  | _ => none

/-- A stage groups by the one attribute, or by an object with each of several once. -/
def stage? : Statement → Option Json
  | .group attr [] => some (.single "$group" (.single "_id" (reference attr)))
  | .group first rest =>
    some (.single "$group" (.single "_id" (.obj ((first :: rest).eraseDups.map fun attr => (attr, reference attr)))))
  | _ => none

def document? : Statement → Option Object
  | .insert pairs => some (Pairs.document pairs)
  | .update pairs => some (Pairs.document pairs)
  | _ => none

end Statement

namespace Query

theorem kind_say (q : Query) (s : Statement) : (q.say s).kind = s.kind?.getD q.kind := by
  cases s with
  | select names =>
    -- A projection says *find* where nothing was said, which is what is taken then anyway.
    simp only [say, select, kind, Statement.kind?]
    cases q.stated <;> rfl
  | _ => rfl

theorem projection_addAll (names : List String) {fields seen : List String} (h : fields = seen.eraseDups) :
    names.foldl addField fields = (seen ++ names.filter (· ≠ "*")).eraseDups := by
  induction names generalizing fields seen with
  | nil => simpa using h
  | cons name names ih =>
    rw [List.foldl_cons]
    by_cases hstar : name = "*"
    · rw [addField, if_pos (.inl hstar), ih h, List.filter_cons_of_neg (by simpa using hstar)]
    · have hadd : addField fields name = (seen ++ [name]).eraseDups := by
        rw [eraseDups_concat, addField, h]
        simp only [hstar, false_or, List.mem_eraseDups]
      rw [ih hadd, List.filter_cons_of_pos (by simpa using hstar), List.append_assoc]
      rfl

theorem pipeline_say (q : Query) (s : Statement) : (q.say s).pipeline = q.pipeline ++ s.stage?.toList := by
  cases s with
  | group first rest =>
    simp only [say, pipeline, setKind, List.map_append]
    cases rest with
    | nil => rfl
    | cons second rest =>
      simp only [List.map_cons, groupId, Fields.ofList_map]
      rfl
  | _ => exact (List.append_nil _).symm

theorem find?_orderObject (q : Query) (attr : String) :
    q.orderObject.find? attr = (q.order.find? attr).map Direction.toJson := by
  unfold orderObject
  induction q.order with
  | nil => rfl
  | cons p order ih =>
    by_cases hp : p.1 = attr
    · simp [Fields.find?, hp]
    · simpa [Fields.find?, hp] using ih

end Query

/-! ## What a tree leaves in each field -/

namespace Tree

/-- The keys to sort by with their directions, in the order of the document. -/
def sortings (tree : Tree) : List (String × Direction) := tree.statements.filterMap Statement.sorting?

/-- The documents of the clauses that give values. -/
def documents (tree : Tree) : List Object := tree.statements.filterMap Statement.document?

end Tree

section Compiled

variable {β γ : Type} {dialect : Dialect} {tree : Tree} {q : Query}

/-- What statements overwrite is as the last of them has it. -/
theorem overwritten_of_compile {view : Query → β} {write : Statement → Option β}
    (houtline : ∀ q : Query, view q.outline = view q)
    (hsay : ∀ (q : Query) (s : Statement), view (q.say s) = (write s).getD (view q))
    (h : compile dialect tree = .ok q) : view q = (tree.statements.filterMap write).getLast?.getD (view {}) := by
  rw [← houtline, outline_of_compile h, foldl_overwrite hsay]

/-- What statements add to has all that they add. -/
theorem collected_of_compile {view : Query → γ} {items : Statement → List β} {add : γ → β → γ}
    (houtline : ∀ q : Query, view q.outline = view q)
    (hsay : ∀ (q : Query) (s : Statement), view (q.say s) = (items s).foldl add (view q))
    (h : compile dialect tree = .ok q) : view q = (tree.statements.flatMap items).foldl add (view {}) := by
  rw [← houtline, outline_of_compile h, foldl_collect hsay]

theorem key_of_compile (h : compile dialect tree = .ok q) :
    q.key = (tree.statements.filterMap Statement.key?).getLast? := by
  have hsay : ∀ (q : Query) (s : Statement), (q.say s).key = (s.key?.map some).getD q.key := by
    intro q s
    cases s <;> rfl
  rw [overwritten_of_compile (fun _ => rfl) hsay h, ← List.map_filterMap, List.getLast?_map]
  cases (tree.statements.filterMap Statement.key?).getLast? <;> rfl

theorem projection_of_compile (h : compile dialect tree = .ok q) :
    q.projection = ((tree.statements.flatMap Statement.selected).filter (· ≠ "*")).eraseDups := by
  have hsay : ∀ (q : Query) (s : Statement),
      (q.say s).projection = s.selected.foldl Query.addField q.projection := by
    intro q s
    cases s <;> rfl
  have hempty : ([] : List String) = [].eraseDups := rfl
  rw [collected_of_compile (fun _ => rfl) hsay h]
  exact Query.projection_addAll _ hempty

theorem order_of_compile (h : compile dialect tree = .ok q) : q.order = Fields.insertAll [] tree.sortings := by
  have hsay : ∀ (q : Query) (s : Statement),
      (q.say s).order = s.sorting?.toList.foldl (fun order p => order.insert p.1 p.2) q.order := by
    intro q s
    cases s <;> rfl
  rw [collected_of_compile (fun _ => rfl) hsay h, ← List.filterMap_eq_flatMap_toList]
  rfl

theorem grouping_of_compile (h : compile dialect tree = .ok q) :
    q.grouping = tree.statements.flatMap Statement.counted := by
  have hsay : ∀ (q : Query) (s : Statement),
      (q.say s).grouping = s.counted.foldl (fun names name => names ++ [name]) q.grouping := by
    intro q s
    rw [foldl_concat]
    cases s with
    | count names => rfl
    | _ => exact (List.append_nil _).symm
  rw [collected_of_compile (fun _ => rfl) hsay h, foldl_concat]
  rfl

theorem pipeline_of_compile (h : compile dialect tree = .ok q) :
    q.pipeline = tree.statements.filterMap Statement.stage? := by
  have hsay : ∀ (q : Query) (s : Statement),
      (q.say s).pipeline = s.stage?.toList.foldl (fun stages stage => stages ++ [stage]) q.pipeline := by
    intro q s
    rw [foldl_concat, Query.pipeline_say]
  rw [collected_of_compile (fun _ => rfl) hsay h, ← List.filterMap_eq_flatMap_toList, foldl_concat]
  rfl

theorem values_of_compile (h : compile dialect tree = .ok q) : q.values = tree.documents.foldl Object.merge [] := by
  have hsay : ∀ (q : Query) (s : Statement), (q.say s).values = s.document?.toList.foldl Object.merge q.values := by
    intro q s
    cases s <;> rfl
  rw [collected_of_compile (fun _ => rfl) hsay h, ← List.filterMap_eq_flatMap_toList]
  rfl

/-- **Every field but the filter, read off the statements.** Where one thing can hold it is the last one stated: the
kind, whatever the projections around it, the collection, the limit, the number of rows to skip and the distinct key.
The projection and the order have each name once, where it came first, and the order has the last direction of each.
Counted names and stages are all kept, and the documents are merged. -/
theorem fields_of_compile (h : compile dialect tree = .ok q) :
    q.kind = (tree.statements.filterMap Statement.kind?).getLast?.getD .find ∧
    q.collection = (tree.statements.filterMap Statement.collection?).getLast?.getD "" ∧
    q.limit = (tree.statements.filterMap Statement.limit?).getLast?.getD 0 ∧
    q.skip = (tree.statements.filterMap Statement.skip?).getLast?.getD 0 ∧
    q.projection = ((tree.statements.flatMap Statement.selected).filter (· ≠ "*")).eraseDups ∧
    q.orderObject.keys = (tree.sortings.map (·.1)).eraseDups ∧
    (∀ attr, q.orderObject.find? attr =
      (tree.sortings.filter (·.1 = attr)).getLast?.map fun sorting => .int sorting.2.toInt) ∧
    q.grouping = tree.statements.flatMap Statement.counted ∧
    q.key = (tree.statements.filterMap Statement.key?).getLast? ∧
    q.pipeline = tree.statements.filterMap Statement.stage? ∧
    q.values = tree.documents.foldl Object.merge [] := by
  have hkeys : q.orderObject.keys = q.order.keys := by
    simp [Query.orderObject, Fields.keys, Function.comp_def]
  have hempty : Fields.keys ([] : Fields Direction) = [].eraseDups := rfl
  refine ⟨overwritten_of_compile (fun _ => rfl) Query.kind_say h,
    overwritten_of_compile (fun _ => rfl) (fun _ s => by cases s <;> rfl) h,
    overwritten_of_compile (fun _ => rfl) (fun _ s => by cases s <;> rfl) h,
    overwritten_of_compile (fun _ => rfl) (fun _ s => by cases s <;> rfl) h,
    projection_of_compile h, ?_, fun attr => ?_, grouping_of_compile h, key_of_compile h, pipeline_of_compile h,
    values_of_compile h⟩
  · rw [hkeys, order_of_compile h, Fields.keys_insertAll hempty, List.nil_append]
  · rw [Query.find?_orderObject, order_of_compile h, Fields.find?_insertAll, Option.map_or, Option.map_map]
    exact Option.or_none

end Compiled

/-- Clauses of one field stand in several groups, both directions are turned, and a projection comes last. -/
def Tree.scattered : Tree where
  groups :=
    [[.token ⟨.identifier, .str "DELETE"⟩, .token ⟨.identifier, .str "SELECT"⟩,
      .token ⟨.value, .arr [.str "name", .str "*"]⟩, .token ⟨.identifier, .str "ORDERBY"⟩, .token ⟨.key, .str "age"⟩,
      .token ⟨.value, .str "Desc"⟩, .token ⟨.key, .str "name"⟩, .token ⟨.value, .int 1⟩,
      .token ⟨.identifier, .str "LIMIT"⟩, .token ⟨.value, .int 5⟩, .token ⟨.value, .int 7⟩],
    [.token ⟨.identifier, .str "COUNT"⟩, .token ⟨.value, .bool true⟩, .token ⟨.value, .str "age"⟩,
      .token ⟨.identifier, .str "DISTINCT"⟩, .token ⟨.value, .str "age"⟩,
      .token ⟨.value, .arr [.str "age", .str "name", .str "age"]⟩, .token ⟨.identifier, .str "OFFSET"⟩,
      .token ⟨.value, .int 3⟩],
    [.token ⟨.identifier, .str "UPDATE"⟩, .token ⟨.key, .str "age"⟩, .token ⟨.value, .int 30⟩,
      .token ⟨.identifier, .str "USING"⟩, .token ⟨.value, .single "table" (.str "users")⟩,
      .token ⟨.identifier, .str "ORDERBY"⟩, .token ⟨.key, .str "age"⟩, .token ⟨.value, .int 1⟩,
      .token ⟨.key, .str "name"⟩, .token ⟨.value, .str "DESC"⟩,
      .token ⟨.identifier, .str "SELECT"⟩, .token ⟨.value, .arr [.str "age", .str "name"]⟩]]

theorem fields_of_compile_scattered : ∃ q, compile {} Tree.scattered = .ok q ∧
    q.kind = .update ∧ q.collection = "users" ∧ q.limit = 7 ∧ q.skip = 3 ∧ q.projection = ["name", "age"] ∧
    q.orderObject.keys = ["age", "name"] ∧ q.orderObject.find? "age" = some (.int 1) ∧
    q.orderObject.find? "name" = some (.int (-1)) ∧ q.grouping = ["age"] ∧ q.key = some "age" ∧
    q.pipeline = [.single "$group" (.single "_id" (.obj [("age", .str "$age"), ("name", .str "$name")]))] ∧
    q.values = [("age", .int 30)] := by
  have hok : (compile {} Tree.scattered).isOk = true := by decide +kernel
  obtain ⟨q, hq⟩ := exists_eq_ok hok
  obtain ⟨hkind, hcollection, hlimit, hskip, hprojection, hkeys, hfind, hgrouping, hkey, hpipeline, hvalues⟩ :=
    fields_of_compile hq
  refine ⟨q, hq, ?_⟩
  rw [hkind, hcollection, hlimit, hskip, hprojection, hkeys, hfind, hfind, hgrouping, hkey, hpipeline, hvalues]
  decide +kernel

end DocQuery
