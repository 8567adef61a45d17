import DocQuery.Proofs.Dialects
import DocQuery.Proofs.Spellings.Clauses

/-!
# Three spellings of a conjunction

Conditions that hold together can be written one after the other in a filter clause, in one array, or each in an array
of its own. The first way fills the filter itself; the other two, joined by `AND`, fill one filter and put it under
`$and`. That filter is the same for all three, down to the order of its keys, and where one of them fails, all fail with
the same error (`compile_conjunction`).
-/

namespace DocQuery

open Grouping

/-! ## Trees of one filter clause -/

/-- The tree with one filter clause. -/
def Tree.ofConditions (nodes : List Node) : Tree := ⟨[.token ⟨.identifier, .str "WHERE"⟩ :: nodes]⟩

/-- The query with its whole filter under `$and`. -/
def Query.underAnd (q : Query) : Query := { q with filter := [("$and", .arr [.obj q.filter])] }

theorem compile_ofConditions (dialect : Dialect) (nodes : List Node) :
    compile dialect (.ofConditions nodes) =
      ({ scope := .conditions, query := .empty dialect } : Cursor).finish nodes := by
  have hwhere : Identifier.ofName "WHERE" = .where_ := by decide +kernel
  rw [Tree.ofConditions, compile_singleton, Query.walk_clause, hwhere]
  rfl

/-- Conditions one after the other. -/
theorem compile_leaves (dialect : Dialect) (ls : List Leaf) :
    compile dialect (.ofConditions (ls.flatMap Leaf.nodes)) =
      (Filter.conjoinAll dialect.like [] ls).map fun f => { Query.empty dialect with filter := f } := by
  rw [compile_ofConditions]
  exact Cursor.finish_leaves ⟨rfl, rfl, .inl rfl⟩ ls

theorem Marker.ofCondition?_and : ofCondition? "AND" = some .and := by decide +kernel

theorem Combinator.ofCondition?_and : ofCondition? "AND" = some .and := by decide +kernel

/-- An array that is joined by `AND`. -/
theorem compile_and_array (dialect : Dialect) (a : List Node) :
    compile dialect (.ofConditions [.word "AND", .group a]) = (Query.empty dialect).applyGroup [] (some .and) a := by
  let c : Cursor := { scope := .conditions, query := .empty dialect }
  have hword : c.conditionWord "AND" = { c with combinator := some .and } := by
    simp only [Cursor.conditionWord, Marker.ofCondition?_and, Combinator.ofCondition?_and, Option.some_or]
  rw [compile_ofConditions, Node.word, Cursor.finish_cons, Cursor.step_word rfl]
  show Cursor.finish (c.conditionWord "AND") [.group a] = _
  rw [hword, Cursor.finish_cons, Cursor.step, Cursor.group_conditions rfl, Attempt.result_ofExcept]
  show ((Query.empty dialect).applyGroup [] (some .and) a).map _ >>= _ = _
  cases (Query.empty dialect).applyGroup [] (some .and) a with
  | error e => rfl
  | ok q => rfl

/-! ## Arrays of clauses -/

/-- An array, joined by `AND`, whose members are clauses that hold together: their filter, under `$and`. -/
theorem compile_and_clauses (dialect : Dialect) {a : List Node} {g : Gathered} (cs : List Clause)
    (hg : gather (isConjoined a) {} a = .ok g) (hmembers : g.members = cs.map .clause) (hne : cs ≠ [])
    (hjoin : 1 < cs.length → g.combinator = some .and ∨ ∀ c ∈ cs, c.markers.contains .and = true) :
    compile dialect (.ofConditions [.word "AND", .group a]) =
      (compile dialect (.ofConditions ((cs.map Clause.leaf).flatMap Leaf.nodes))).map Query.underAnd := by
  obtain ⟨e, hclose, hadd⟩ := exists_close_clauses hmembers hne hjoin
  have hreduce : reduce [] a = .ok (some e) := bind_eq_ok.mpr ⟨g, hg, hclose⟩
  rw [compile_and_array, compile_leaves, Query.applyGroup, hreduce]
  show (Query.empty dialect).applyExpr .and e = _
  rw [Query.applyExpr, hadd]
  show (Filter.conjoinAll dialect.like [] (cs.map Clause.leaf)).map _ >>= _ = _
  cases Filter.conjoinAll dialect.like [] (cs.map Clause.leaf) with
  | error e => rfl
  | ok f => rfl

/-- The clauses of an array are marked if there are at least two values in it. -/
theorem Grouping.isConjoined_blocks {α : Type} {block : α → List Node} (hvalue : ∀ a, (block a).countP isValue = 1)
    (hgroup : ∀ a, (block a).any isGroup = false) (pre : List Node) (hpre : pre.countP isValue = 0)
    (hpregroup : pre.any isGroup = false) (as : List α) :
    isConjoined (pre ++ as.flatMap block) = decide (1 < as.length) := by
  have hvalues : ∀ as : List α, (as.flatMap block).countP isValue = as.length := by
    intro as
    induction as with
    | nil => rfl
    | cons a as ih =>
      rw [List.flatMap_cons, List.countP_append, hvalue, ih, List.length_cons]
      omega
  have hgroups : (as.flatMap block).any isGroup = false := by
    simp [List.any_flatMap, hgroup]
  simp [isConjoined, hpre, hpregroup, hvalues, hgroups]

theorem Leaf.countP_nodes (l : Leaf) : l.nodes.countP isValue = 1 := by
  obtain ⟨⟨key, operator, value⟩, modifier⟩ := l
  cases modifier <;> cases operator <;> rfl

theorem Leaf.any_isGroup_nodes (l : Leaf) : l.nodes.any isGroup = false := by
  obtain ⟨⟨key, operator, value⟩, modifier⟩ := l
  cases modifier <;> cases operator <;> rfl

/-- An array with one clause is that clause. -/
theorem Grouping.reduce_leaf (l : Leaf) : reduce [] l.nodes = .ok (some (.clause l.clause)) := by
  have hconjoined : isConjoined l.nodes = false := by simp [isConjoined, l.countP_nodes, l.any_isGroup_nodes]
  rw [reduce, hconjoined]
  exact bind_eq_ok.mpr ⟨_, gather_leaf (.inl rfl) l, rfl⟩

/-- An array that gives clauses, with a mark if there are at least two of them. They hold together for that. -/
theorem compile_and_marked (dialect : Dialect) {a : List Node} {ls : List Leaf} {d : Draft} (hne : ls ≠ [])
    (hconjoined : isConjoined a = decide (1 < ls.length))
    (hg : gather (isConjoined a) {} a = .ok ⟨d, none, ls.map fun l => .clause (l.clause.tag (isConjoined a))⟩) :
    compile dialect (.ofConditions [.word "AND", .group a]) =
      (compile dialect (.ofConditions (ls.flatMap Leaf.nodes))).map Query.underAnd := by
  let cs : List Clause := ls.map fun l => l.clause.tag (isConjoined a)
  have hleaves : cs.map Clause.leaf = ls := by simp [cs, Function.comp_def]
  have hmarked : 1 < cs.length → ∀ c ∈ cs, c.markers.contains .and = true := by
    intro hlen c hc
    obtain ⟨l, _, rfl⟩ := List.mem_map.mp hc
    rw [List.length_map] at hlen
    simp [hconjoined, hlen, Clause.tag, Clause.mark]
  have hcompile := compile_and_clauses dialect cs hg (by simp [cs]) (by simpa [cs] using hne) fun h => .inr (hmarked h)
  rwa [hleaves] at hcompile

/-- Clauses in one array. -/
theorem compile_and_leaves (dialect : Dialect) {ls : List Leaf} (hne : ls ≠ []) :
    compile dialect (.ofConditions [.word "AND", .group (ls.flatMap Leaf.nodes)]) =
      (compile dialect (.ofConditions (ls.flatMap Leaf.nodes))).map Query.underAnd := by
  have hconjoined : isConjoined (ls.flatMap Leaf.nodes) = decide (1 < ls.length) :=
    isConjoined_blocks Leaf.countP_nodes Leaf.any_isGroup_nodes [] rfl rfl ls
  obtain ⟨d, hg⟩ := gather_leaves (isConjoined (ls.flatMap Leaf.nodes)) ls
  exact compile_and_marked dialect hne hconjoined hg

/-- Clauses in an array each. They are not marked, and hold together by the combinator of the array around them. -/
theorem compile_and_arrays (dialect : Dialect) {ls : List Leaf} (hne : ls ≠ []) :
    compile dialect (.ofConditions [.word "AND", .group (.word "AND" :: ls.map fun l => .group l.nodes)]) =
      (compile dialect (.ofConditions (ls.flatMap Leaf.nodes))).map Query.underAnd := by
  let a : List Node := .word "AND" :: ls.map fun l => .group l.nodes
  let cs : List Clause := ls.map Leaf.clause
  have hleaves : cs.map Clause.leaf = ls := by simp [cs, Function.comp_def]
  have hword : Gathered.condition {} "AND" = { combinator := some .and } := by
    simp only [Gathered.condition, Marker.ofCondition?_and, Combinator.ofCondition?_and, Option.some_or]
  have hmember : ∀ (g : Gathered) (l : Leaf), g.draft = {} → ∃ d : Draft, d = {} ∧
      gather (isConjoined a) g [.group l.nodes] = .ok ⟨d, g.combinator, g.members ++ [.clause l.clause]⟩ := by
    intro g l hd
    have hreduce : reduce g.draft.pendingMarkers l.nodes = .ok (some (.clause l.clause)) := by
      rw [hd]
      exact reduce_leaf l
    refine ⟨{}, rfl, bind_eq_ok.mpr ⟨⟨{}, g.combinator, g.members ++ [.clause l.clause]⟩, ?_, rfl⟩⟩
    rw [gatherNode_group, hreduce]
    rfl
  obtain ⟨d, hgather⟩ := gather_blocks (g := { combinator := some .and }) (· = {}) hmember ls rfl
  rw [← List.map_eq_flatMap] at hgather
  have hg : gather (isConjoined a) {} a = .ok ⟨d, some .and, [] ++ ls.map fun l => .clause l.clause⟩ := by
    refine bind_eq_ok.mpr ⟨_, gatherNode_word _ _ _, ?_⟩
    rw [hword]
    exact hgather
  have hcompile := compile_and_clauses dialect cs hg (by simp [cs]) (by simpa [cs] using hne) fun _ => .inl rfl
  rwa [hleaves] at hcompile

/-- **Three spellings of a conjunction.** Clauses in one array, and clauses in an array each, compile to the query of
the clauses alone with its filter under `$and`; and they fail with the same error. -/
theorem compile_conjunction (dialect : Dialect) {ls : List Leaf} (hne : ls ≠ []) :
    compile dialect (.ofConditions [.word "AND", .group (ls.flatMap Leaf.nodes)]) =
        (compile dialect (.ofConditions (ls.flatMap Leaf.nodes))).map Query.underAnd ∧
      compile dialect (.ofConditions [.word "AND", .group (.word "AND" :: ls.map fun l => .group l.nodes)]) =
        (compile dialect (.ofConditions (ls.flatMap Leaf.nodes))).map Query.underAnd :=
  ⟨compile_and_leaves dialect hne, compile_and_arrays dialect hne⟩

/-- A key in three clauses, of which two exclude each other's place in one entry. -/
def Leaf.votes : List Leaf :=
  [⟨⟨"votes", some ">", .int 100⟩, .not⟩, ⟨⟨"votes", none, .arr [.int 7, .int 8]⟩, .inList⟩,
    ⟨⟨"votes", some "<", .int 9⟩, .not⟩]

theorem compile_conjunction_votes : ∃ q, compile {} (.ofConditions (Leaf.votes.flatMap Leaf.nodes)) = .ok q ∧
    compile {} (.ofConditions [.word "AND", .group (Leaf.votes.flatMap Leaf.nodes)]) = .ok q.underAnd ∧
    compile {} (.ofConditions [.word "AND", .group (.word "AND" :: Leaf.votes.map fun l => .group l.nodes)]) =
      .ok q.underAnd := by
  obtain ⟨q, hq⟩ := exists_eq_ok (show (compile {} (.ofConditions (Leaf.votes.flatMap Leaf.nodes))).isOk = true by
    decide +kernel)
  have hspellings := compile_conjunction {} (show Leaf.votes ≠ [] by decide)
  rw [hq] at hspellings
  exact ⟨q, hq, hspellings⟩

end DocQuery
