import DocQuery.Proofs.Dialects
import DocQuery.Proofs.Patterns.Strings

/-!
# The two spellings of a pattern

A filter with patterns as operators is respelled by putting a literal in the place of each operator, at any depth
(`Json.respell`). Respelling changes neither the keys of a filter nor where operators can share an entry, as long as no
key is spelled `$regularExpression` beforehand. So every addition decides alike in both styles (`respell_perform`), and
the style is a matter of spelling (`compile_respell`).
-/

namespace DocQuery

/-! ## Respelling -/

namespace Json

mutual

/-- The value with every entry `$regex`, at any depth, replaced by a literal. -/
def respell : Json → Json
  | .arr items => .arr (respellItems items)
  | .obj fields => .obj (respellFields fields)
  | .null => .null
  | .bool b => .bool b
  | .num n => .num n
  | .str s => .str s

def respellItems : List Json → List Json
  | [] => []
  | item :: rest => item.respell :: respellItems rest

def respellFields : List (String × Json) → List (String × Json)
  | [] => []
  | (key, value) :: rest =>
    if key = "$regex" then
      ("$regularExpression", .obj [("pattern", value), ("options", .str "")]) :: respellFields rest
    else (key, value.respell) :: respellFields rest

end

/-- The key of an entry after respelling. -/
def respellKey (key : String) : String := if key = "$regex" then "$regularExpression" else key

theorem respellItems_eq (items : List Json) : respellItems items = items.map respell := by
  induction items with
  | nil => rfl
  | cons item rest ih => rw [respellItems, ih, List.map_cons]

theorem respellFields_append (xs ys : List (String × Json)) :
    respellFields (xs ++ ys) = respellFields xs ++ respellFields ys := by
  induction xs with
  | nil => rfl
  | cons p rest ih =>
    obtain ⟨key, value⟩ := p
    rw [List.cons_append, respellFields, respellFields, ih]
    split <;> rfl

theorem keys_respellFields (fields : List (String × Json)) :
    Fields.keys (respellFields fields) = (Fields.keys fields).map respellKey := by
  induction fields with
  | nil => rfl
  | cons p rest ih =>
    obtain ⟨key, value⟩ := p
    simp only [Fields.keys] at ih
    by_cases hkey : key = "$regex" <;> simp [respellFields, respellKey, Fields.keys, hkey, ih]

theorem respell_single {key : String} (hkey : key ≠ "$regex") (value : Json) :
    (Json.single key value).respell = .single key value.respell := by
  simp [single, respell, respellFields, hkey]

theorem respell_operand (regex : String) : (Like.operand .regex regex).respell = Like.operand .literal regex := by
  simp [Like.operand, respell, respellFields]

mutual

theorem respell_eq_self : ∀ {j : Json}, "$regex" ∉ j.strings → j.respell = j
  | .arr items, h => by rw [respell, respellItems_eq_self h]
  | .obj fields, h => by rw [respell, respellFields_eq_self h]
  | .null, _ => rfl
  | .bool _, _ => rfl
  | .num _, _ => rfl
  | .str _, _ => rfl

theorem respellItems_eq_self : ∀ {items : List Json}, "$regex" ∉ stringsItems items → respellItems items = items
  | [], _ => rfl
  | item :: rest, h => by
    rw [stringsItems, List.mem_append, not_or] at h
    rw [respellItems, respell_eq_self h.1, respellItems_eq_self h.2]

theorem respellFields_eq_self :
    ∀ {fields : List (String × Json)}, "$regex" ∉ stringsFields fields → respellFields fields = fields
  | [], _ => rfl
  | (key, value) :: rest, h => by
    rw [stringsFields, List.cons_append, List.mem_cons, List.mem_append, not_or, not_or] at h
    rw [respellFields, if_neg (Ne.symm h.1), respell_eq_self h.2.1, respellFields_eq_self h.2.2]

end

end Json

open Json (respellFields respellKey)

/-! ## Fields under other keys -/

section Fields

variable {key : String} (hregex : key ≠ "$regex") (hliteral : key ≠ "$regularExpression")
include hregex hliteral

theorem Fields.find?_respell (fields : Object) :
    Fields.find? key (respellFields fields) = (fields.find? key).map Json.respell := by
  induction fields with
  | nil => rfl
  | cons p rest ih =>
    obtain ⟨k, v⟩ := p
    rw [respellFields]
    by_cases hk : k = "$regex"
    · simp [Fields.find?, hk, Ne.symm hregex, Ne.symm hliteral, ih]
    · by_cases hkey : k = key <;> simp [Fields.find?, hk, hkey, hregex, ih]

theorem Fields.respell_insert (value : Json) (fields : Object) :
    respellFields (fields.insert key value) = Fields.insert key value.respell (respellFields fields) := by
  induction fields with
  | nil => simp [Fields.insert, respellFields, hregex]
  | cons p rest ih =>
    obtain ⟨k, v⟩ := p
    by_cases hk : k = "$regex"
    · simp [Fields.insert, respellFields, hk, Ne.symm hregex, Ne.symm hliteral, ih]
    · by_cases hkey : k = key <;> simp [Fields.insert, respellFields, hk, hkey, hregex, ih]

end Fields

/-! ## Additions -/

namespace Filter

theorem respell_push (f : Filter) (c : Combinator) (entry : Json) :
    respellFields (f.push c entry) = push (respellFields f) c entry.respell := by
  have hregex : c.operator ≠ "$regex" := by cases c <;> decide
  have hliteral : c.operator ≠ "$regularExpression" := by cases c <;> decide
  unfold push
  rw [Fields.find?_respell hregex hliteral]
  cases f.find? c.operator with
  | none => simp [Fields.respell_insert hregex hliteral, Json.respell, Json.respellItems]
  | some existing =>
    cases existing <;>
      simp [Fields.respell_insert hregex hliteral, Json.respell, Json.respellItems, Json.respellItems_eq]

theorem respell_graft (f : Filter) (c : Combinator) (nested : Filter) :
    respellFields (f.graft c nested) = graft (respellFields f) c (respellFields nested) := by
  cases nested with
  | nil => rfl
  | cons p rest =>
    have hnested : respellFields (p :: rest) ≠ [] := by
      obtain ⟨key, value⟩ := p
      rw [respellFields]
      split <;> simp
    rw [graft_of_ne_nil f c (List.cons_ne_nil p rest), graft_of_ne_nil _ c hnested, respell_push]
    rfl

/-- Respelling keeps an object of operators one. -/
theorem isOperators_respell (o : Object) : Object.isOperators (respellFields o) = o.isOperators := by
  have hname : ∀ key, isOperatorName (respellKey key) = isOperatorName key := by
    intro key
    unfold respellKey
    split
    · rename_i hkey
      rw [hkey]
      decide +kernel
    · rfl
  rw [Bool.eq_iff_iff, isOperators_iff, isOperators_iff, Json.keys_respellFields]
  simp [hname]

/-- No two keys are respelled alike, if none is a literal's. -/
theorem respellKey_inj {k k' : String} (h : k ≠ "$regularExpression") (h' : k' ≠ "$regularExpression")
    (heq : respellKey k = respellKey k') : k = k' := by
  unfold respellKey at heq
  by_cases hk : k = "$regex" <;> by_cases hk' : k' = "$regex"
  · rw [hk, hk']
  · rw [if_pos hk, if_neg hk'] at heq
    exact absurd heq.symm h'
  · rw [if_neg hk, if_pos hk'] at heq
    exact absurd heq h
  · rwa [if_neg hk, if_neg hk'] at heq

section Shared

variable {old new : Object} (hold : "$regularExpression" ∉ old.keys) (hnew : "$regularExpression" ∉ new.keys)
include hold hnew

/-- Operators have none in common before respelling if and only if they have none afterwards. -/
theorem areDisjoint_respell : areDisjoint (respellFields old) (respellFields new) = areDisjoint old new := by
  rw [Bool.eq_iff_iff, areDisjoint_iff, areDisjoint_iff, isOperators_respell, isOperators_respell,
    Json.keys_respellFields, Json.keys_respellFields]
  refine and_congr_right fun _ => and_congr_right fun _ => ?_
  constructor
  · intro h k hk hk'
    exact h (respellKey k) (List.mem_map_of_mem hk) (List.mem_map_of_mem hk')
  · intro h k hk hk'
    obtain ⟨k₁, hk₁, rfl⟩ := List.mem_map.mp hk
    obtain ⟨k₂, hk₂, heq⟩ := List.mem_map.mp hk'
    have h₁ : k₁ ≠ "$regularExpression" := fun e => hnew (e ▸ hk₁)
    have h₂ : k₂ ≠ "$regularExpression" := fun e => hold (e ▸ hk₂)
    exact h k₁ hk₁ (respellKey_inj h₂ h₁ heq ▸ hk₂)

/-- Merging operators that have none in common appends them, so they can be respelled apart. -/
theorem respell_merge (hd : areDisjoint old new = true)
    (hempty : respellFields (Object.merge [] new) = Object.merge [] (respellFields new)) :
    respellFields (Object.merge old new) = Object.merge (respellFields old) (respellFields new) := by
  have hd' : areDisjoint (respellFields old) (respellFields new) = true := by
    rw [areDisjoint_respell hold hnew, hd]
  rw [merge_eq_append_merge hd, merge_eq_append_merge hd', Json.respellFields_append, hempty]

end Shared

end Filter

/-! ## Values before respelling -/

/-- No object with the key of a literal. -/
def Json.Unspelled (j : Json) : Prop := ∀ o, j = .obj o → "$regularExpression" ∉ Fields.keys o

/-- What a condition brings in: an object that is merged into nothing alike before and after respelling. -/
structure Json.Spellable (fragment : Json) : Prop where
  unspelled : fragment.Unspelled
  merge : ∀ o, fragment = .obj o → respellFields (Object.merge [] o) = Object.merge [] (respellFields o)

theorem Json.spellable_of_not_mem {fragment : Json} (hregex : "$regex" ∉ fragment.strings)
    (hliteral : "$regularExpression" ∉ fragment.strings) : fragment.Spellable := by
  refine ⟨fun o ho hmem => ?_, fun o ho => ?_⟩
  · subst ho
    exact hliteral (Json.mem_stringsFields_of_mem_keys hmem)
  · subst ho
    have hmerged : "$regex" ∉ Json.stringsFields (Object.merge [] o) := fun h =>
      (Object.mem_strings_merge h).elim (fun h => by cases h) hregex
    rw [Json.respellFields_eq_self hmerged, Json.respellFields_eq_self hregex]

theorem Json.spellable_single {key : String} (value : Json) (hkey : key ≠ "$regularExpression") :
    (Json.single key value).Spellable := by
  refine ⟨fun o ho hmem => ?_, fun o ho => ?_⟩
  · cases ho
    exact hkey (by simpa [Fields.keys, eq_comm] using hmem)
  · cases ho
    rw [Object.merge_nil_single, respellFields]
    split <;> rw [respellFields, Object.merge_nil_single]

/-- Neither of the two spellings occurs in the condition. -/
structure Leaf.Unspelled (l : Leaf) : Prop where
  regex : "$regex" ∉ l.condition.strings
  literal : "$regularExpression" ∉ l.condition.strings

theorem Leaf.Unspelled.key_ne {l : Leaf} (h : l.Unspelled) :
    l.condition.key ≠ "$regex" ∧ l.condition.key ≠ "$regularExpression" := by
  have hkey : l.condition.key ∈ l.condition.strings := List.mem_cons_self
  exact ⟨fun e => h.regex (e ▸ hkey), fun e => h.literal (e ▸ hkey)⟩

/-- The fragment of a condition, in the one style and in the other. -/
theorem Leaf.fragment_respell {l : Leaf} {fragment : Json} (hl : l.Unspelled) (h : l.fragment .regex = .ok fragment) :
    l.fragment .literal = .ok fragment.respell ∧ fragment.Spellable := by
  rcases Leaf.fragment_cases h with ⟨_, hs, hsame⟩ | ⟨_, regex, rfl, hsame⟩ | ⟨_, regex, rfl, hsame⟩
  · have hregex : "$regex" ∉ fragment.strings := fun hmem => (hs _ hmem).elim hl.regex (by decide)
    have hliteral : "$regularExpression" ∉ fragment.strings := fun hmem => (hs _ hmem).elim hl.literal (by decide)
    rw [Json.respell_eq_self hregex]
    exact ⟨hsame .literal, Json.spellable_of_not_mem hregex hliteral⟩
  · rw [Json.respell_operand]
    exact ⟨hsame .literal, Json.spellable_single (.str regex) (by decide)⟩
  · rw [Json.respell_single (by decide), Json.respell_operand]
    exact ⟨hsame .literal, Json.spellable_single (Like.operand .regex regex) (by decide)⟩

namespace Filter

/-- No entry is an object with the key of a literal. -/
def Unspelled (f : Filter) : Prop := ∀ key value, f.find? key = some value → value.Unspelled

theorem Unspelled.empty : Unspelled [] := fun key value h => by cases h

theorem Unspelled.insert {f : Filter} (h : f.Unspelled) {value : Json} (hv : value.Unspelled) (key : String) :
    Unspelled (f.insert key value) := by
  intro k v hk
  by_cases hkey : key = k
  · subst hkey
    rw [Fields.find?_insert_self] at hk
    cases hk
    exact hv
  · rw [Fields.find?_insert_of_ne hkey] at hk
    exact h k v hk

theorem Unspelled.push {f : Filter} (h : f.Unspelled) (c : Combinator) (entry : Json) : Unspelled (f.push c entry) := by
  have harr : ∀ items, (Json.arr items).Unspelled := fun items o ho => by cases ho
  unfold Filter.push
  split
  · exact h.insert (harr _) _
  · exact h.insert (harr _) _

theorem Unspelled.graft {f : Filter} (h : f.Unspelled) (c : Combinator) (nested : Filter) :
    Unspelled (f.graft c nested) := by
  unfold Filter.graft
  split
  · exact h
  · exact h.push c _

/-- Whether an entry can be shared does not depend on the spelling. -/
theorem shared?_respell {existing fragment : Json} (he : existing.Unspelled) (hf : fragment.Spellable) :
    shared? existing.respell fragment.respell = (shared? existing fragment).map Json.respell := by
  cases existing with
  | obj old =>
    cases fragment with
    | obj new =>
      simp only [Json.respell, shared?]
      rw [areDisjoint_respell (he old rfl) (hf.unspelled new rfl)]
      by_cases hd : areDisjoint old new = true
      · rw [if_pos hd, if_pos hd, Option.map_some, Json.respell,
          respell_merge (he old rfl) (hf.unspelled new rfl) hd (hf.merge new rfl)]
      · rw [if_neg hd, if_neg hd, Option.map_none]
    | _ => rfl
  | _ => rfl

theorem unspelled_shared? {existing fragment entry : Json} (he : existing.Unspelled) (hf : fragment.Unspelled)
    (h : shared? existing fragment = some entry) : entry.Unspelled := by
  unfold shared? at h
  split at h
  · rename_i old new
    split at h
    · cases h
      intro o ho hmem
      cases ho
      exact (Object.mem_keys_merge.mp hmem).elim (he old rfl) (hf new rfl)
    · cases h
  · cases h

/-- A condition among the entries goes to the same place in both spellings. -/
theorem respell_conjoin {f : Filter} (h : f.Unspelled) {key : String} {fragment : Json} (hregex : key ≠ "$regex")
    (hliteral : key ≠ "$regularExpression") (hf : fragment.Spellable) :
    respellFields (f.conjoin key fragment) = conjoin (respellFields f) key fragment.respell ∧
      Unspelled (f.conjoin key fragment) := by
  unfold conjoin
  rw [Fields.find?_respell hregex hliteral]
  cases hfind : f.find? key with
  | none => exact ⟨Fields.respell_insert hregex hliteral fragment f, h.insert hf.unspelled key⟩
  | some existing =>
    have hexisting := h key existing hfind
    simp only [Option.map_some, shared?_respell hexisting hf]
    cases hshared : shared? existing fragment with
    | none =>
      refine ⟨?_, h.push .and _⟩
      rw [respell_push, Json.respell_single hregex]
      rfl
    | some entry =>
      exact ⟨Fields.respell_insert hregex hliteral entry f,
        h.insert (unspelled_shared? hexisting hf.unspelled hshared) key⟩

mutual

/-- An addition in one style is the respelled addition in the other. -/
theorem respell_perform : ∀ {a : Addition} {f g : Filter}, (∀ l ∈ a.leaves, l.Unspelled) → f.Unspelled →
    f.perform .regex a = .ok g → perform .literal (respellFields f) a = .ok (respellFields g) ∧ g.Unspelled
  | .entry l, f, g, hl, hf, h => by
    obtain ⟨fragment, hfragment, rfl⟩ := perform_entry h
    have hleaf := hl l (List.mem_singleton_self l)
    obtain ⟨hliteral, hspellable⟩ := Leaf.fragment_respell hleaf hfragment
    obtain ⟨heq, hunspelled⟩ := respell_conjoin hf hleaf.key_ne.1 hleaf.key_ne.2 hspellable
    refine ⟨?_, hunspelled⟩
    rw [perform, hliteral, heq]
    rfl
  | .element c l, f, g, hl, hf, h => by
    obtain ⟨fragment, hfragment, rfl⟩ := perform_element h
    have hleaf := hl l (List.mem_singleton_self l)
    obtain ⟨hliteral, _⟩ := Leaf.fragment_respell hleaf hfragment
    refine ⟨?_, hf.push c _⟩
    rw [perform, hliteral, respell_push, Json.respell_single hleaf.key_ne.1]
    rfl
  | .nested c additions, f, g, hl, hf, h => by
    obtain ⟨nested, hnested, rfl⟩ := perform_nested h
    obtain ⟨hall, _⟩ := respell_performAll hl .empty hnested
    refine ⟨?_, hf.graft c nested⟩
    rw [perform, show performAll .literal [] additions = .ok (respellFields nested) from hall, respell_graft]
    rfl

theorem respell_performAll : ∀ {additions : List Addition} {f g : Filter},
    (∀ l ∈ Addition.leavesAll additions, l.Unspelled) → f.Unspelled → f.performAll .regex additions = .ok g →
      performAll .literal (respellFields f) additions = .ok (respellFields g) ∧ g.Unspelled
  | [], _, _, _, hf, h => by
    cases h
    exact ⟨rfl, hf⟩
  | a :: rest, f, g, hl, hf, h => by
    rw [Addition.leavesAll, List.forall_mem_append] at hl
    obtain ⟨f₁, h₁, h₂⟩ := performAll_cons h
    obtain ⟨hstep, hf₁⟩ := respell_perform hl.1 hf h₁
    rw [performAll, hstep]
    exact respell_performAll hl.2 hf₁ h₂

end

end Filter

/-! ## Trees -/

/-- The query in the literal style, with its filter respelled. -/
def Query.respell (q : Query) : Query :=
  { q with dialect := { q.dialect with like := .literal }, filter := respellFields q.filter }

/-- **The style of patterns is a spelling.** A tree in which neither spelling occurs is accepted in both styles, or
refused in both with the same error. With literals, its query is that with operators, with the filter respelled. -/
theorem compile_respell (dialect : Dialect) {tree : Tree} (hregex : "$regex" ∉ tree.strings)
    (hliteral : "$regularExpression" ∉ tree.strings) :
    compile { dialect with like := .literal } tree =
      (compile { dialect with like := .regex } tree).map Query.respell := by
  have houtline := Query.simulation_outline.walkAll
    (.mk (.empty { dialect with like := .regex }) { dialect with like := .literal } []) tree.groups
  cases hr : compile { dialect with like := .regex } tree with
  | error e => exact (houtline.error_iff e).mp hr
  | ok q =>
    obtain ⟨q', hq', hsame⟩ := houtline.exists_ok hr
    have hq'' : compile { dialect with like := .literal } tree = .ok q' := hq'
    have hleaves : ∀ l ∈ Addition.leavesAll (tree.additions dialect.count), l.Unspelled := by
      intro l hl
      constructor
      · intro hs
        exact (Tree.strings_leaf hl hs).elim hregex (by decide)
      · intro hs
        exact (Tree.strings_leaf hl hs).elim hliteral (by decide)
    obtain ⟨hperform, _⟩ := Filter.respell_performAll hleaves .empty (performAll_of_compile hr)
    have hfilter : q'.filter = respellFields q.filter :=
      Except.ok.inj ((performAll_of_compile hq'').symm.trans hperform)
    have hdialect := dialect_of_compile hr
    have hdialect' := dialect_of_compile hq''
    rw [hq'']
    cases hsame with
    | mk dialect' filter' =>
      cases hdialect'
      cases hfilter
      simp only [Except.map, Query.respell, hdialect]

/-- A pattern that shares its entry, one that is negated, and two on one attribute inside an array. -/
def Tree.patterns : Tree :=
  ⟨[[.token ⟨.identifier, .str "WHERE"⟩,
    .token ⟨.key, .str "name"⟩, .token ⟨.operator, .str "like"⟩, .token ⟨.value, .str "A%"⟩,
    .token ⟨.key, .str "name"⟩, .token ⟨.operator, .str "<>"⟩, .token ⟨.value, .str "Ann"⟩,
    .token ⟨.condition, .str "NOT"⟩,
    .token ⟨.key, .str "city"⟩, .token ⟨.operator, .str "LIKE"⟩, .token ⟨.value, .str "%ville"⟩,
    .group [
      .token ⟨.key, .str "tag"⟩, .token ⟨.operator, .str "like"⟩, .token ⟨.value, .str "x%"⟩,
      .token ⟨.key, .str "tag"⟩, .token ⟨.operator, .str "like"⟩, .token ⟨.value, .str "%y"⟩]]]⟩

theorem compile_respell_patterns : "$regex" ∉ Tree.patterns.strings ∧ "$regularExpression" ∉ Tree.patterns.strings ∧
    (compile {} .patterns).toOption.map Query.filter = some
      [("name", .obj [("$regex", .str "^A"), ("$ne", .str "Ann")]),
        ("city", .single "$not" (.single "$regex" (.str "ville$"))),
        ("$or", .arr [.obj [("tag", .single "$regex" (.str "^x")),
          ("$and", .arr [.single "tag" (.single "$regex" (.str "y$"))])]])] ∧
    ∃ q, compile {} .patterns = .ok q ∧ compile { like := .literal } .patterns = .ok q.respell := by
  have hregex : "$regex" ∉ Tree.patterns.strings := by decide +kernel
  have hliteral : "$regularExpression" ∉ Tree.patterns.strings := by decide +kernel
  have hrespell : compile { like := .literal } .patterns = (compile {} .patterns).map Query.respell :=
    compile_respell {} hregex hliteral
  have hok : (compile {} .patterns).isOk = true := by decide +kernel
  obtain ⟨q, hq⟩ := exists_eq_ok hok
  refine ⟨hregex, hliteral, by decide +kernel, q, hq, ?_⟩
  rw [hrespell, hq]
  rfl

end DocQuery
