import DocQuery.Proofs.Filter.Growth
import DocQuery.Proofs.Patterns.Entries

/-!
# Where a literal stands alone

A conjunction is a list of conditions that are added as entries of one filter: of the filter of a query, or of the
filter of a group at any depth (`Tree.conjunctions`). Along all additions, what is found under an attribute is the entry
that the conditions of the conjunction on that attribute make; under the key of a connective it is that, or a list
(`Tracks`). And what has been put into a list of a connective stays there (`HasElement`).

So literals stand alone in the filter of a tree if no conjunction is crowded on any key, and they do not if one is
crowded on an attribute (`literalsAlone_of_compile`).
-/

namespace DocQuery

open Json (LiteralsAlone literalsAlone_obj)
open Leaf (entryOf entryOf_cases Crowded)

/-! ## Conjunctions -/

namespace Addition

def entry? : Addition → Option Leaf
  | .entry l => some l
  | .element _ _ => none
  | .nested _ _ => none

/-- The conditions that are added as entries of one filter. -/
def entries (additions : List Addition) : List Leaf := additions.filterMap entry?

theorem entries_cons (a : Addition) (rest : List Addition) : entries (a :: rest) = a.entry?.toList ++ entries rest := by
  cases h : a.entry? <;> simp [entries, h]

mutual

/-- The conjunctions inside an addition. -/
def inner : Addition → List (List Leaf)
  | .entry _ => []
  | .element _ _ => []
  | .nested _ additions => entries additions :: innerAll additions

def innerAll : List Addition → List (List Leaf)
  | [] => []
  | a :: rest => a.inner ++ innerAll rest

end

/-- The conjunction that additions make, and those inside of them. -/
def conjunctions (additions : List Addition) : List (List Leaf) := entries additions :: innerAll additions

/-- Every other conjunction is one of a group that is added. -/
theorem mem_conjunctions {ls : List Leaf} {additions : List Addition} : ls ∈ conjunctions additions ↔
    ls = entries additions ∨ ∃ c members, .nested c members ∈ additions ∧ ls ∈ conjunctions members := by
  have hinner : ls ∈ innerAll additions ↔ ∃ a ∈ additions, ls ∈ a.inner := by
    induction additions with
    | nil => simp [innerAll]
    | cons a rest ih => simp [innerAll, ih]
  rw [conjunctions, List.mem_cons, hinner]
  refine or_congr_right ⟨?_, ?_⟩
  · rintro ⟨a, ha, hls⟩
    cases a with
    | entry l => cases hls
    | element c l => cases hls
    | nested c members => exact ⟨c, members, ha, hls⟩
  · rintro ⟨c, members, ha, hls⟩
    exact ⟨_, ha, hls⟩

end Addition

def Tree.conjunctions (count : CountStyle) (tree : Tree) : List (List Leaf) :=
  Addition.conjunctions (tree.additions count)

namespace Filter

variable {f g : Filter} {l : Leaf} {fragment : Json}

/-! ## Elements of connectives -/

/-- The connective is a list with the element in it. -/
def HasElement (c : Combinator) (element : Json) (f : Filter) : Prop :=
  ∃ items, f.find? c.operator = some (.arr items) ∧ element ∈ items

section Element

variable {c : Combinator} {element : Json}

/-- What is found after a push: a list under the connective, and the same as before under other keys. -/
theorem find?_push (f : Filter) (c : Combinator) (entry : Json) :
    (∃ items, (f.push c entry).find? c.operator = some (.arr (items ++ [entry])) ∧
      (f.find? c.operator = some (.arr items) ∨ items = [] ∧ ∀ items', f.find? c.operator ≠ some (.arr items'))) ∧
    ∀ key, key ≠ c.operator → (f.push c entry).find? key = f.find? key := by
  unfold push
  split
  · rename_i items hfind
    exact ⟨⟨items, Fields.find?_insert_self _ _ _, .inl hfind⟩, fun key hkey => Fields.find?_insert_of_ne hkey.symm _ _⟩
  · rename_i hfind
    exact ⟨⟨[], Fields.find?_insert_self _ _ _, .inr ⟨rfl, hfind⟩⟩,
      fun key hkey => Fields.find?_insert_of_ne hkey.symm _ _⟩

theorem hasElement_push (f : Filter) (c : Combinator) (element : Json) : HasElement c element (f.push c element) := by
  obtain ⟨items, hfind, _⟩ := (find?_push f c element).1
  exact ⟨_, hfind, by simp⟩

theorem HasElement.push (h : HasElement c element f) (c' : Combinator) (entry : Json) :
    HasElement c element (f.push c' entry) := by
  obtain ⟨items, hfind, hmem⟩ := h
  by_cases hc : c = c'
  · subst hc
    obtain ⟨items', hfind', hbefore | ⟨_, hbefore⟩⟩ := (find?_push f c entry).1
    · cases hfind.symm.trans hbefore
      exact ⟨_, hfind', List.mem_append_left _ hmem⟩
    · exact absurd hfind (hbefore items)
  · have hne : c.operator ≠ c'.operator := by
      revert hc
      cases c <;> cases c' <;> decide
    exact ⟨items, ((find?_push f c' entry).2 _ hne).trans hfind, hmem⟩

theorem HasElement.graft (h : HasElement c element f) (c' : Combinator) (nested : Filter) :
    HasElement c element (f.graft c' nested) := by
  unfold Filter.graft
  split
  · exact h
  · exact h.push c' _

/-- A condition among the entries leaves lists alone, even on the key of a connective. -/
theorem HasElement.conjoin (h : HasElement c element f) (key : String) (fragment : Json) :
    HasElement c element (f.conjoin key fragment) := by
  obtain ⟨items, hfind, hmem⟩ := h
  have hinsert : ∀ value, key ≠ c.operator → HasElement c element (f.insert key value) := fun value hkey =>
    ⟨items, (Fields.find?_insert_of_ne hkey _ _).trans hfind, hmem⟩
  unfold Filter.conjoin
  split
  · rename_i hnone
    refine hinsert _ fun e => ?_
    rw [e, hfind] at hnone
    cases hnone
  · rename_i existing hexisting
    split
    · rename_i entry hshared
      refine hinsert _ fun e => ?_
      rw [e, hfind] at hexisting
      cases hexisting
      cases hshared
    · exact HasElement.push ⟨items, hfind, hmem⟩ .and _

theorem HasElement.performAll {style : LikeStyle} {additions : List Addition} (h : HasElement c element f)
    (hperform : f.performAll style additions = .ok g) : HasElement c element g := by
  induction additions generalizing f with
  | nil =>
    cases hperform
    exact h
  | cons a rest ih =>
    obtain ⟨f₁, h₁, h₂⟩ := performAll_cons hperform
    refine ih ?_ h₂
    cases a with
    | entry l =>
      obtain ⟨fragment, _, rfl⟩ := perform_entry h₁
      exact h.conjoin _ _
    | element c' l =>
      obtain ⟨fragment, _, rfl⟩ := perform_element h₁
      exact h.push _ _
    | nested c' additions =>
      obtain ⟨nested, _, rfl⟩ := perform_nested h₁
      exact h.graft _ _

/-- A group that says anything is an element of its connective in the end. -/
theorem hasElement_of_nested {style : LikeStyle} {additions members : List Addition}
    (hmem : .nested c members ∈ additions) (hperform : f.performAll style additions = .ok g) :
    ∃ nested, Filter.performAll style [] members = .ok nested ∧ (nested ≠ [] → HasElement c (.obj nested) g) := by
  induction additions generalizing f with
  | nil => cases hmem
  | cons a rest ih =>
    obtain ⟨f₁, h₁, h₂⟩ := performAll_cons hperform
    rcases List.mem_cons.mp hmem with rfl | hmem
    · obtain ⟨nested, hnested, rfl⟩ := perform_nested h₁
      refine ⟨nested, hnested, fun hne => HasElement.performAll ?_ h₂⟩
      rw [graft_of_ne_nil f c hne]
      exact hasElement_push f c _
    · exact ih hmem h₂

end Element

/-! ## Entries -/

/-- The filter after the conditions of a conjunction, with what satisfies `P` in the lists of its connectives. -/
structure Tracks (P : Json → Prop) (ls : List Leaf) (f : Filter) : Prop where
  settled : ∀ l ∈ ls, l.Settled
  nodup : f.keys.Nodup
  keys : "$regularExpression" ∉ f.keys
  found : ∀ key, f.find? key = entryOf key ls ∨
    (Combinator.ofOperator? key ≠ none ∧ ∃ items, f.find? key = some (.arr items) ∧ ∀ i ∈ items, P i)

namespace Tracks

variable {P : Json → Prop} {ls : List Leaf}

theorem empty : Tracks P [] [] where
  settled := by simp
  nodup := by simp [Fields.keys]
  keys := by simp [Fields.keys]
  found _ := .inl rfl

theorem push (hP : ∀ j : Json, j.LiteralsAlone → P j) (h : Tracks P ls f) (c : Combinator) {entry : Json}
    (hentry : P entry) : Tracks P ls (f.push c entry) := by
  refine ⟨h.settled, nodup_keys_push h.nodup c entry, ?_, ?_⟩
  · unfold Filter.push
    split <;> rw [Fields.mem_keys_insert, not_or] <;> exact ⟨h.keys, by cases c <;> decide⟩
  · intro key
    by_cases hkey : key = c.operator
    · subst hkey
      obtain ⟨items, hfind, hbefore⟩ := (find?_push f c entry).1
      refine .inr ⟨by simp, items ++ [entry], hfind, fun i hi => ?_⟩
      rcases List.mem_append.mp hi with hi | hi
      · rcases hbefore with hbefore | ⟨rfl, _⟩
        · rcases h.found c.operator with hentryOf | ⟨_, items', hfind', hitems⟩
          · -- A list that a condition has put there has no literals in it.
            have hlist := hentryOf.symm.trans hbefore
            rcases entryOf_cases h.settled c.operator with ⟨_, halone⟩ | ⟨_, o, ho, _⟩
            · exact hP i (Json.literalsAlone_arr.mp (halone _ hlist) i hi)
            · cases ho.symm.trans hlist
          · cases hfind'.symm.trans hbefore
            exact hitems i hi
        · cases hi
      · exact List.mem_singleton.mp hi ▸ hentry
    · rw [(find?_push f c entry).2 key hkey]
      exact h.found key

theorem graft (hP : ∀ j : Json, j.LiteralsAlone → P j) (h : Tracks P ls f) (c : Combinator) {nested : Filter}
    (hnested : P (.obj nested)) : Tracks P ls (f.graft c nested) := by
  unfold Filter.graft
  split
  · exact h
  · exact h.push hP c hnested

/-- A condition that opens or shares the entry of its key. -/
theorem insert (h : Tracks P ls f) (hl : l.Settled) {value : Json}
    (hvalue : l.entryAfter (entryOf l.condition.key ls) = some value) :
    Tracks P (ls ++ [l]) (f.insert l.condition.key value) := by
  refine ⟨?_, Fields.nodup_keys_insert _ _ h.nodup, ?_, ?_⟩
  · simpa [or_imp, forall_and] using ⟨h.settled, hl⟩
  · rw [Fields.mem_keys_insert, not_or]
    exact ⟨h.keys, fun e => hl.strings (e ▸ List.mem_cons_self)⟩
  · intro key
    by_cases hkey : l.condition.key = key
    · subst hkey
      rw [Fields.find?_insert_self, Leaf.entryOf_append_self, hvalue]
      exact .inl rfl
    · rw [Fields.find?_insert_of_ne hkey, Leaf.entryOf_append_of_ne hkey]
      exact h.found key

/-- A condition that leaves the entry of its key as it is. -/
theorem skip (h : Tracks P ls f) (hl : l.Settled)
    (hskip : f.find? l.condition.key = entryOf l.condition.key ls →
      l.entryAfter (entryOf l.condition.key ls) = entryOf l.condition.key ls) : Tracks P (ls ++ [l]) f := by
  refine ⟨?_, h.nodup, h.keys, ?_⟩
  · simpa [or_imp, forall_and] using ⟨h.settled, hl⟩
  · intro key
    by_cases hkey : l.condition.key = key
    · subst hkey
      rw [Leaf.entryOf_append_self]
      exact (h.found l.condition.key).imp_left fun hfound => hfound.trans (hskip hfound).symm
    · rw [Leaf.entryOf_append_of_ne hkey]
      exact h.found key

theorem conjoin (hP : ∀ j : Json, j.LiteralsAlone → P j) (h : Tracks P ls f)
    (hl : "$regularExpression" ∉ l.condition.strings) (hf : l.fragment .literal = .ok fragment) :
    Tracks P (ls ++ [l]) (f.conjoin l.condition.key fragment) := by
  have hsettled : l.Settled := ⟨hl, fragment, hf⟩
  unfold Filter.conjoin
  rcases h.found l.condition.key with hfound | ⟨_, items, hfound, _⟩
  · cases hentry : entryOf l.condition.key ls with
    | none =>
      rw [hfound, hentry]
      exact h.insert hsettled (by rw [hentry, Leaf.entryAfter_none hf])
    | some entry =>
      have hafter := Leaf.entryAfter_some hf entry
      rw [hfound, hentry]
      dsimp only
      cases hshared : shared? entry fragment with
      | some merged =>
        rw [hshared] at hafter
        exact h.insert hsettled (hentry ▸ hafter)
      | none =>
        rw [hshared] at hafter
        refine (h.skip hsettled fun _ => hentry ▸ hafter).push hP .and (hP _ ?_)
        exact Json.literalsAlone_single (Leaf.fragment_literal hl hf).1
  · -- A list is never shared, whatever was under the key before it.
    rw [hfound]
    refine (h.skip hsettled fun heq => ?_).push hP .and (hP _ ?_)
    · rw [← heq, hfound]
      exact Leaf.entryAfter_some hf (.arr items)
    · exact Json.literalsAlone_single (Leaf.fragment_literal hl hf).1

/-- Additions extend the conjunction by their entries. -/
theorem performAll (hP : ∀ j : Json, j.LiteralsAlone → P j) {additions : List Addition}
    (hl : ∀ l ∈ Addition.leavesAll additions, "$regularExpression" ∉ l.condition.strings)
    (hnested : ∀ c inner nested, .nested c inner ∈ additions → Filter.performAll .literal [] inner = .ok nested →
      P (.obj nested))
    (h : Tracks P ls f) (hperform : f.performAll .literal additions = .ok g) :
    Tracks P (ls ++ Addition.entries additions) g := by
  induction additions generalizing f ls with
  | nil =>
    cases hperform
    simpa [Addition.entries] using h
  | cons a rest ih =>
    obtain ⟨f₁, h₁, h₂⟩ := performAll_cons hperform
    rw [Addition.leavesAll, List.forall_mem_append] at hl
    have hrest := fun c inner nested hmem =>
      hnested c inner nested (List.mem_cons_of_mem a hmem)
    have hstep : Tracks P (ls ++ a.entry?.toList) f₁ := by
      cases a with
      | entry l =>
        obtain ⟨fragment, hf, rfl⟩ := perform_entry h₁
        exact h.conjoin hP (hl.1 l (List.mem_singleton_self l)) hf
      | element c l =>
        obtain ⟨fragment, hf, rfl⟩ := perform_element h₁
        have halone := (Leaf.fragment_literal (hl.1 l (List.mem_singleton_self l)) hf).1
        simpa [Addition.entry?] using h.push hP c (hP _ (Json.literalsAlone_single halone))
      | nested c inner =>
        obtain ⟨nested, hinner, rfl⟩ := perform_nested h₁
        simpa [Addition.entry?] using h.graft hP c (hnested c inner nested List.mem_cons_self hinner)
    rw [Addition.entries_cons, ← List.append_assoc]
    exact ih hl.2 hrest hstep h₂

/-- The filter of a conjunction that is not crowded, if literals stand alone in its connectives. -/
theorem literalsAlone (h : Tracks LiteralsAlone ls f) (hls : ∀ key, ¬ Crowded key ls) :
    (Json.obj f).LiteralsAlone := by
  refine literalsAlone_obj.mpr ⟨fun hkey => h.keys hkey.1, ?_⟩
  rintro ⟨key, value⟩ hp
  have hfind := Fields.find?_of_mem h.nodup hp
  rcases h.found key with hfound | ⟨_, items, hfound, hitems⟩
  · rcases entryOf_cases h.settled key with ⟨_, halone⟩ | ⟨hcrowded, _⟩
    · exact halone value (hfound.symm.trans hfind)
    · exact absurd hcrowded (hls key)
  · cases hfound.symm.trans hfind
    exact Json.literalsAlone_arr.mpr hitems

theorem not_literalsAlone (h : Tracks P ls f) {key : String} (hkey : Combinator.ofOperator? key = none)
    (hcrowded : Crowded key ls) : ¬ (Json.obj f).LiteralsAlone := by
  intro halone
  rcases h.found key with hfound | ⟨hconnective, _⟩
  · rcases entryOf_cases h.settled key with ⟨hnot, _⟩ | ⟨_, o, ho, hentry⟩
    · exact hnot hcrowded
    · exact hentry ((literalsAlone_obj.mp halone).2 _ (Fields.mem_of_find? (hfound.trans ho)))
  · exact hconnective hkey

end Tracks

/-! ## Filters -/

theorem HasElement.not_literalsAlone {c : Combinator} {element : Json} (h : HasElement c element f)
    (hnot : ¬ element.LiteralsAlone) : ¬ (Json.obj f).LiteralsAlone := by
  intro halone
  obtain ⟨items, hfind, hmem⟩ := h
  have hlist := (literalsAlone_obj.mp halone).2 _ (Fields.mem_of_find? hfind)
  exact hnot (Json.literalsAlone_arr.mp hlist element hmem)

theorem literalsAlone_performAll {additions : List Addition}
    (hl : ∀ l ∈ Addition.leavesAll additions, "$regularExpression" ∉ l.condition.strings)
    (hperform : performAll .literal [] additions = .ok g)
    (h : ∀ ls ∈ Addition.conjunctions additions, ∀ key, ¬ Crowded key ls) : (Json.obj g).LiteralsAlone := by
  induction additions using Addition.groups_induction generalizing g with
  | step additions ih =>
    have hnested : ∀ c members nested, .nested c members ∈ additions → performAll .literal [] members = .ok nested →
        (Json.obj nested).LiteralsAlone := by
      intro c members nested hmem hmembers
      refine ih c members hmem (fun l hm => hl l (Addition.mem_leavesAll_of_nested hmem hm)) hmembers ?_
      intro ls hls
      exact h ls (Addition.mem_conjunctions.mpr (.inr ⟨c, members, hmem, hls⟩))
    have htracks := Tracks.performAll (fun _ halone => halone) hl hnested .empty hperform
    exact htracks.literalsAlone (h _ (Addition.mem_conjunctions.mpr (.inl rfl)))

theorem not_literalsAlone_performAll {additions : List Addition}
    (hl : ∀ l ∈ Addition.leavesAll additions, "$regularExpression" ∉ l.condition.strings)
    (hperform : performAll .literal [] additions = .ok g) {ls : List Leaf} (hls : ls ∈ Addition.conjunctions additions)
    {key : String} (hkey : Combinator.ofOperator? key = none) (hcrowded : Crowded key ls) :
    ¬ (Json.obj g).LiteralsAlone := by
  induction additions using Addition.groups_induction generalizing g with
  | step additions ih =>
    rcases Addition.mem_conjunctions.mp hls with rfl | ⟨c, members, hmem, hls⟩
    · -- Whatever is in the lists, the entry of the key is the one that the conditions make.
      have htracks : Tracks (fun _ => True) ([] ++ Addition.entries additions) g :=
        Tracks.performAll (fun _ _ => trivial) hl (fun _ _ _ _ _ => trivial) .empty hperform
      exact htracks.not_literalsAlone hkey hcrowded
    · obtain ⟨nested, hmembers, hhas⟩ := hasElement_of_nested hmem hperform
      have hnot : ¬ (Json.obj nested).LiteralsAlone :=
        ih c members hmem (fun l hm => hl l (Addition.mem_leavesAll_of_nested hmem hm)) hmembers hls
      have hne : nested ≠ [] := by
        rintro rfl
        exact hnot (by decide)
      exact (hhas hne).not_literalsAlone hnot

end Filter

/-! ## Trees -/

/-- **A literal stands alone unless its conjunction is crowded.** In a tree that does not spell `$regularExpression`
itself, compiled with literals, every object of the filter with that key has no other key if there is no conjunction and
no key such that, of the conditions on the key, the first puts operators there, one is a pattern, and one puts operators
that are none. If there are, and the key is an attribute, some literal does not stand alone. -/
theorem literalsAlone_of_compile (dialect : Dialect) {tree : Tree} (hs : "$regularExpression" ∉ tree.strings)
    {q : Query} (h : compile { dialect with like := .literal } tree = .ok q) :
    ((∀ ls ∈ tree.conjunctions dialect.count, ∀ key, ¬ Crowded key ls) → (Json.obj q.filter).LiteralsAlone) ∧
      ∀ ls ∈ tree.conjunctions dialect.count, ∀ key, Combinator.ofOperator? key = none → Crowded key ls →
        ¬ (Json.obj q.filter).LiteralsAlone := by
  have hl : ∀ l ∈ Addition.leavesAll (tree.additions dialect.count), "$regularExpression" ∉ l.condition.strings := by
    intro l hl hmem
    exact (Tree.strings_leaf hl hmem).elim hs (by decide)
  have hperform : Filter.performAll .literal [] (tree.additions dialect.count) = .ok q.filter :=
    performAll_of_compile h
  constructor
  · intro hcrowd
    exact Filter.literalsAlone_performAll hl hperform hcrowd
  · intro ls hls key hkey hcrowded
    exact Filter.not_literalsAlone_performAll hl hperform hls hkey hcrowded

/-- Two conditions on one attribute, of which the first is a pattern. -/
def Tree.twiceOn (operator : String) (value : Json) : Tree :=
  ⟨[[.token ⟨.identifier, .str "FROM"⟩, .token ⟨.value, .str "users"⟩],
    [.token ⟨.identifier, .str "WHERE"⟩,
      .token ⟨.key, .str "name"⟩, .token ⟨.operator, .str "like"⟩, .token ⟨.value, .str "A%"⟩,
      .token ⟨.key, .str "name"⟩, .token ⟨.operator, .str operator⟩, .token ⟨.value, value⟩]]⟩

-- A second pattern goes under `$and`. The inequality does not: it stands beside the literal.
theorem literalsAlone_of_compile_twice :
    (∃ q, compile { like := .literal } (.twiceOn "like" (.str "%n")) = .ok q ∧ (Json.obj q.filter).LiteralsAlone) ∧
      ∃ q, compile { like := .literal } (.twiceOn "<>" (.str "Ann")) = .ok q ∧ ¬ (Json.obj q.filter).LiteralsAlone := by
  constructor
  · have hok : (compile { like := .literal } (.twiceOn "like" (.str "%n"))).isOk = true := by decide +kernel
    have hs : "$regularExpression" ∉ (Tree.twiceOn "like" (.str "%n")).strings := by decide +kernel
    have hpatterns : ∀ ls ∈ (Tree.twiceOn "like" (.str "%n")).conjunctions .pipeline, ∀ l ∈ ls,
        l.isPattern = true := by decide +kernel
    obtain ⟨q, hq⟩ := exists_eq_ok hok
    refine ⟨q, hq, (literalsAlone_of_compile {} hs hq).1 fun ls hls key hcrowded => ?_⟩
    obtain ⟨l, hl, _, hnot⟩ := hcrowded.other
    rw [hpatterns ls hls l (List.mem_filter.mp hl).1] at hnot
    cases hnot
  · have hok : (compile { like := .literal } (.twiceOn "<>" (.str "Ann"))).isOk = true := by decide +kernel
    have hs : "$regularExpression" ∉ (Tree.twiceOn "<>" (.str "Ann")).strings := by decide +kernel
    obtain ⟨q, hq⟩ := exists_eq_ok hok
    refine ⟨q, hq, (literalsAlone_of_compile {} hs hq).2 _ List.mem_cons_self "name" (by decide +kernel) ?_⟩
    exact ⟨by decide +kernel, by decide +kernel, by decide +kernel⟩

end DocQuery
