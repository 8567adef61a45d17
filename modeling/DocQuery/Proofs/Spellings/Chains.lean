import DocQuery.Proofs.Patterns.Literals
import DocQuery.Proofs.Spellings.Conjunctions

/-!
# Negated chains

An operator after a complete clause opens the clause again for the same key, so that `NOT key o₁ v₁ o₂ v₂ …` is a chain
of conditions on one key. How far its `NOT` reaches depends on where the chain stands. At the top level the word waits
as a modifier, which the first value uses up: that condition alone is negated. In an array the word is a marker of the
clause, which keeps it when it is opened again: all conditions are negated.

So a chain does not say the same in the two places. Without patterns both compile, and the array gives the filter of the
top level under `$and` exactly if the chain has one condition (`negatedChain_reach`). The conditions that do not fit
into the entry of the key show it. In an array none of them fits, for all have the operator `$not`
(`Filter.elements_negations`); at the top level some may, and those that do not are not negated
(`Filter.exists_sublist_elements`).
-/

namespace DocQuery

open Grouping

/-! ## Chains -/

/-- A condition of a chain: an operator and what it compares with. -/
structure Link where
  operator : String
  value : Json
deriving DecidableEq, Repr

namespace Link

def leaf (key : String) (modifier : Modifier) (s : Link) : Leaf := ⟨⟨key, some s.operator, s.value⟩, modifier⟩

def nodes (s : Link) : List Node := Node.comparison (some s.operator) s.value

/-- The comparison with an operator that is no pattern. -/
def comparison (s : Link) : Object := [(Operator.canonical s.operator, s.value)]

end Link

/-- The nodes of `NOT key o₁ v₁ o₂ v₂ …`. -/
def Node.negatedChain (key : String) (links : List Link) : List Node :=
  [.word "NOT", .token ⟨.key, .str key⟩] ++ links.flatMap Link.nodes

theorem Cursor.Chained.run_link {c : Cursor} {key : String} (h : c.Chained key) (s : Link) :
    ∃ c' : Cursor, (∀ q, ({ c' with query := q } : Cursor).Chained key) ∧
      c.run s.nodes =
        (c.query.apply .root (s.leaf key .plain).modifier (s.leaf key .plain).condition).map fun q =>
          { c' with query := q } := by
  have hrun : c.run s.nodes = _ := Cursor.run_comparison h.scope h.draft (by simp) s.value
  rw [h.modifiers] at hrun
  exact ⟨{ c with modifiers := {}, draft := ⟨c.draft.markers, c.draft.key, some s.operator, true⟩ },
    fun _ => ⟨h.scope, rfl, h.draft⟩, hrun⟩

/-- At the top level the first condition is negated, and no other. -/
theorem compile_negatedChain (dialect : Dialect) (key : String) (first : Link) (rest : List Link) :
    compile dialect (.ofConditions (Node.negatedChain key (first :: rest))) =
      compile dialect
        (.ofConditions ((first.leaf key .not :: rest.map (Link.leaf key .plain)).flatMap Leaf.nodes)) := by
  have hchain : Node.negatedChain key (first :: rest) = (first.leaf key .not).nodes ++ rest.flatMap Link.nodes := rfl
  rw [compile_leaves, compile_ofConditions, hchain, Cursor.finish_append, Cursor.run_leaf ⟨rfl, rfl, .inl rfl⟩,
    Filter.conjoinAll, List.foldlM_cons, Query.apply]
  show (((Filter.apply dialect.like [] .root _ _).map _).map _ >>= _) =
    (Filter.apply dialect.like [] .root _ _ >>= _).map _
  cases Filter.apply dialect.like [] .root (first.leaf key .not).modifier (first.leaf key .not).condition with
  | error e => rfl
  | ok f =>
    exact Cursor.finish_blocks (Link.leaf key .plain) (fun _ (h : Cursor.Chained _ key) => h.scope)
      (fun _ s h => h.run_link s) rest ⟨rfl, rfl, rfl⟩

theorem Grouping.gather_link {conjoined : Bool} {g : Gathered} {key : String} (h : g.draft.Chained [.not] key)
    (s : Link) : ∃ d : Draft, d.Chained [.not] key ∧
      gather conjoined g s.nodes =
        .ok ⟨d, g.combinator, g.members ++ [.clause ((s.leaf key .not).clause.tag conjoined)]⟩ := by
  have hgather : gather conjoined g s.nodes = _ := gather_comparison h.keyed (by simp) s.value
  rw [h.marked] at hgather
  exact ⟨⟨[.not], g.draft.key, some s.operator, true⟩, ⟨rfl, h.keyed⟩, hgather⟩

/-- In an array all conditions are negated. -/
theorem compile_and_negatedChain (dialect : Dialect) (key : String) (first : Link) (rest : List Link) :
    compile dialect (.ofConditions [.word "AND", .group (Node.negatedChain key (first :: rest))]) =
      (compile dialect
        (.ofConditions (((first :: rest).map (Link.leaf key .not)).flatMap Leaf.nodes))).map Query.underAnd := by
  let conjoined := isConjoined (Node.negatedChain key (first :: rest))
  have hconjoined : conjoined = decide (1 < (first :: rest).length) :=
    isConjoined_blocks (fun _ => rfl) (fun _ => rfl) [.word "NOT", .token ⟨.key, .str key⟩] rfl rfl (first :: rest)
  have hopening : gather conjoined {} [.word "NOT", .token ⟨.key, .str key⟩] =
      .ok ⟨⟨[.not], some key, none, false⟩, none, []⟩ := gather_opening (.inl rfl) (first.leaf key .not)
  obtain ⟨d, hlinks⟩ := gather_blocks (g := ⟨⟨[.not], some key, none, false⟩, none, []⟩) (Draft.Chained · [.not] key)
    (fun _ s h => gather_link h s) (first :: rest) ⟨rfl, rfl⟩
  refine compile_and_marked dialect (d := d) (by simp) (by simpa using hconjoined) ?_
  rw [Node.negatedChain, gather_append]
  refine bind_eq_ok.mpr ⟨_, hopening, hlinks.trans ?_⟩
  rw [List.map_map]
  rfl

/-! ## Conditions beside the entry of their key -/

theorem Json.ne_single (key : String) (x : Json) : x ≠ .single key x := by
  intro h
  have hsize := congrArg sizeOf h
  simp [Json.single] at hsize
  omega

namespace Filter

variable {f : Filter} {key : String}

/-- An object is not taken for the list of a connective, even on its key. -/
theorem elements_insert (c : Combinator) (hfind : ∀ items, f.find? key ≠ some (.arr items)) (o : Object) :
    elements c (f.insert key (.obj o)) = f.elements c := by
  unfold elements
  by_cases hkey : key = c.operator
  · subst hkey
    rw [Fields.find?_insert_self]
    show [] = _
    split
    · rename_i items hitems
      exact absurd hitems (hfind items)
    · rfl
  · rw [Fields.find?_insert_of_ne hkey]

/-- A condition among the entries goes under `$and`, or leaves what is there. -/
theorem elements_conjoin (f : Filter) (key : String) (o : Object) :
    (f.conjoin key (.obj o)).elements .and = f.elements .and ∨
      (f.conjoin key (.obj o)).elements .and = f.elements .and ++ [.single key (.obj o)] := by
  rcases conjoin_cases f key (.obj o) with ⟨hfind, _⟩ | ⟨_, old, _, new, hfind, hnew, hdisjoint, _⟩ | ⟨_, _, _, hpush⟩
  · left
    simpa only [conjoin, hfind] using elements_insert .and (by simp [hfind]) o
  · left
    cases hnew
    simpa only [conjoin, hfind, shared?, hdisjoint, if_true] using elements_insert .and (by simp [hfind]) _
  · right
    rw [hpush, elements_push]

/-- Fragments on one key, one after the other. -/
def conjoinOn (key : String) (f : Filter) (fragments : List Json) : Filter := fragments.foldl (·.conjoin key ·) f

/-- Some of the fragments go under `$and`, in their order. -/
theorem exists_sublist_elements (key : String) (f : Filter) (os : List Object) :
    ∃ os' : List Object, os'.Sublist os ∧
      (conjoinOn key f (os.map .obj)).elements .and = f.elements .and ++ os'.map fun o => .single key (.obj o) := by
  induction os generalizing f with
  | nil => exact ⟨[], .slnil, by simp [conjoinOn]⟩
  | cons o os ih =>
    obtain ⟨os', hsublist, hrest⟩ := ih (f.conjoin key (.obj o))
    rcases elements_conjoin f key o with hsame | hpush
    · exact ⟨os', hsublist.cons o, by rw [← hsame]; exact hrest⟩
    · refine ⟨o :: os', hsublist.cons_cons o, hrest.trans ?_⟩
      rw [hpush, List.append_assoc]
      rfl

/-- The entry of the key has no place for a negation. -/
def RefusesNegation (key : String) (f : Filter) : Prop :=
  ∃ entry, f.find? key = some entry ∧ ∀ x, shared? entry (.single "$not" x) = none

theorem refusesNegation_negation (key : String) (x : Json) :
    RefusesNegation key (conjoin [] key (.single "$not" x)) := by
  refine ⟨.single "$not" x, by simp [conjoin, Fields.find?, Fields.insert], fun x' => ?_⟩
  simp [shared?, Json.single, areDisjoint, Fields.keys, Fields.contains, Fields.find?]

theorem RefusesNegation.push (h : f.RefusesNegation key) (entry : Json) :
    RefusesNegation key (f.push .and entry) := by
  obtain ⟨held, hfind, hrefuses⟩ := h
  by_cases hkey : key = Combinator.operator .and
  · subst hkey
    obtain ⟨items, hitems, _⟩ := (find?_push f .and entry).1
    exact ⟨_, hitems, fun _ => rfl⟩
  · exact ⟨held, ((find?_push f .and entry).2 key hkey).trans hfind, hrefuses⟩

/-- Negations after a negation all go under `$and`. -/
theorem elements_negations (h : f.RefusesNegation key) (xs : List Json) :
    (conjoinOn key f (xs.map (.single "$not"))).elements .and =
      f.elements .and ++ xs.map fun x => .single key (.single "$not" x) := by
  induction xs generalizing f with
  | nil => simp [conjoinOn]
  | cons x xs ih =>
    have hconjoin : f.conjoin key (.single "$not" x) = f.push .and (.single key (.single "$not" x)) := by
      obtain ⟨held, hfind, hrefuses⟩ := h
      simp [conjoin, hfind, hrefuses x]
    have hrest := ih (h.push (.single key (.single "$not" x)))
    rw [elements_push, List.append_assoc, ← hconjoin] at hrest
    exact hrest

/-- After a negation, fragments and their negations give the same filter only if there are none. -/
theorem conjoinOn_eq_negations_iff (h : f.RefusesNegation key) (os : List Object) :
    conjoinOn key f (os.map .obj) = conjoinOn key f ((os.map Json.obj).map (.single "$not")) ↔ os = [] := by
  constructor
  · intro heq
    obtain ⟨os', hsublist, hplain⟩ := exists_sublist_elements key f os
    have hnegated := elements_negations h (os.map .obj)
    rw [← heq, hplain] at hnegated
    have hlists := List.append_cancel_left hnegated
    -- As many fragments as negations go under `$and`, so all of them do, and each is its own negation.
    have hlength : os'.length = os.length := by simpa using congrArg List.length hlists
    obtain rfl := hsublist.eq_of_length hlength
    cases os' with
    | nil => rfl
    | cons o os =>
      simp only [List.map_cons, List.cons.injEq, Json.single, Json.obj.injEq, Prod.mk.injEq, true_and, and_true]
        at hlists
      exact absurd (congrArg Json.obj hlists.1) (Json.ne_single "$not" (.obj o))
  · rintro rfl
    rfl

end Filter

/-! ## The two places of a chain -/

theorem Link.fragment_leaf {style : LikeStyle} {s : Link} (hlike : Operator.isLike s.operator = false) (key : String) :
    (s.leaf key .plain).fragment style = .ok (.obj s.comparison) ∧
      (s.leaf key .not).fragment style = .ok (.single "$not" (.obj s.comparison)) := by
  simp [Leaf.fragment, leaf, Condition.fragment, Condition.comparison, hlike, comparison, Json.single, Except.map]

namespace Filter

variable {style : LikeStyle} {key : String}

theorem conjoinAll_links {modifier : Modifier} {fragment : Link → Json} {links : List Link}
    (h : ∀ s ∈ links, (s.leaf key modifier).fragment style = .ok (fragment s)) (f : Filter) :
    conjoinAll style f (links.map (Link.leaf key modifier)) = .ok (conjoinOn key f (links.map fragment)) := by
  induction links generalizing f with
  | nil => rfl
  | cons s links ih =>
    have hfirst : f.apply style .root modifier (s.leaf key modifier).condition = .ok (f.conjoin key (fragment s)) :=
      map_eq_ok.mpr ⟨fragment s, h s List.mem_cons_self, rfl⟩
    refine bind_eq_ok.mpr ⟨_, hfirst, ?_⟩
    exact ih (fun s hs => h s (List.mem_cons_of_mem _ hs)) _

/-- Without patterns, the filters of the two places begin with the same negation. -/
theorem exists_conjoinOn (style : LikeStyle) (key : String) {first : Link} {rest : List Link}
    (hlike : ∀ s ∈ first :: rest, Operator.isLike s.operator = false) :
    ∃ f, RefusesNegation key f ∧
      conjoinAll style [] (first.leaf key .not :: rest.map (Link.leaf key .plain)) =
        .ok (conjoinOn key f ((rest.map Link.comparison).map .obj)) ∧
      conjoinAll style [] ((first :: rest).map (Link.leaf key .not)) =
        .ok (conjoinOn key f (((rest.map Link.comparison).map Json.obj).map (.single "$not"))) := by
  have hplain : ∀ s ∈ rest, (s.leaf key .plain).fragment style = .ok (.obj s.comparison) := fun s hs =>
    (Link.fragment_leaf (hlike s (List.mem_cons_of_mem _ hs)) key).1
  have hnegated : ∀ s ∈ first :: rest, (s.leaf key .not).fragment style = .ok (.single "$not" (.obj s.comparison)) :=
    fun s hs => (Link.fragment_leaf (hlike s hs) key).2
  have hfirst : apply style [] .root .not (first.leaf key .not).condition =
      .ok (conjoin [] key (.single "$not" (.obj first.comparison))) :=
    map_eq_ok.mpr ⟨_, hnegated first List.mem_cons_self, rfl⟩
  refine ⟨_, refusesNegation_negation key (.obj first.comparison), ?_, ?_⟩
  · rw [List.map_map]
    exact bind_eq_ok.mpr ⟨_, hfirst, conjoinAll_links hplain _⟩
  · rw [List.map_map, List.map_map]
    exact conjoinAll_links hnegated []

end Filter

/-- **How far a negation reaches.** In a chain of conditions on one key, `NOT` negates the first condition if the chain
is at the top level of a filter clause, and all of them if it is in an array. If no condition is a pattern, both trees
compile, and the array gives the query of the top level with its filter under `$and` only if there is one condition. -/
theorem negatedChain_reach (dialect : Dialect) (key : String) (first : Link) (rest : List Link) :
    compile dialect (.ofConditions (Node.negatedChain key (first :: rest))) =
        compile dialect
          (.ofConditions ((first.leaf key .not :: rest.map (Link.leaf key .plain)).flatMap Leaf.nodes)) ∧
      compile dialect (.ofConditions [.word "AND", .group (Node.negatedChain key (first :: rest))]) =
        (compile dialect
          (.ofConditions (((first :: rest).map (Link.leaf key .not)).flatMap Leaf.nodes))).map Query.underAnd ∧
      ((∀ s ∈ first :: rest, Operator.isLike s.operator = false) →
        ∃ q q', compile dialect (.ofConditions (Node.negatedChain key (first :: rest))) = .ok q ∧
          compile dialect (.ofConditions [.word "AND", .group (Node.negatedChain key (first :: rest))]) = .ok q' ∧
          (q' = q.underAnd ↔ rest = [])) := by
  have htop := compile_negatedChain dialect key first rest
  have harray := compile_and_negatedChain dialect key first rest
  refine ⟨htop, harray, fun hlike => ?_⟩
  obtain ⟨f, hrefuses, hplain, hnegated⟩ := Filter.exists_conjoinOn dialect.like key hlike
  rw [compile_leaves, hplain] at htop
  rw [compile_leaves, hnegated] at harray
  refine ⟨_, _, htop, harray, ?_⟩
  rw [← List.map_eq_nil_iff (f := Link.comparison), ← Filter.conjoinOn_eq_negations_iff hrefuses, eq_comm]
  simp [Query.underAnd]

/-- Of more than 100 and less than 200, the array negates both and the top level one. -/
theorem negatedChain_reach_votes :
    ∃ q q', compile {} (.ofConditions (Node.negatedChain "votes" [⟨">", .int 100⟩, ⟨"<", .int 200⟩])) = .ok q ∧
      compile {} (.ofConditions [.word "AND", .group (Node.negatedChain "votes" [⟨">", .int 100⟩, ⟨"<", .int 200⟩])]) =
        .ok q' ∧ q' ≠ q.underAnd := by
  have hlike : ∀ s ∈ [(⟨">", .int 100⟩ : Link), ⟨"<", .int 200⟩], Operator.isLike s.operator = false := by
    decide +kernel
  obtain ⟨q, q', hq, hq', hiff⟩ := (negatedChain_reach {} "votes" ⟨">", .int 100⟩ [⟨"<", .int 200⟩]).2.2 hlike
  exact ⟨q, q', hq, hq', fun heq => by simpa using hiff.mp heq⟩

end DocQuery
