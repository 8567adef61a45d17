import DocQuery.Proofs.Parentheses
import DocQuery.Proofs.Spellings.Conjunctions

/-!
# Markers in front of nested arrays

A clause can be put into an array, that array into another one, and so on, with `NOT` and `IN` in front of each
(`Leaf.wrapped`). Every level hands its markers on to the clause inside: a `NOT` toggles the negation, which takes a
`NOT` off the clause or puts one on it, and an `IN` is set once. So the clause comes out negated if the number of `NOT`s
is odd, and as a list test if there is an `IN` at all (`Modifier.combined`). A clause never has two `NOT`s on the way
(`Clause.Simple`), or taking one off would not end its negation.

`Query.applyGroup_wrapped`: the outermost array has exactly the effect of that one condition.
-/

namespace DocQuery

open Grouping

/-! ## Modifiers -/

namespace Modifier

/-- The words for a modifier: `[NOT] [IN]`. -/
def words (m : Modifier) : List Node :=
  (if m.isNegated then [.word "NOT"] else []) ++ (if m.isListed then [.word "IN"] else [])

/-- Negated if an odd number of the modifiers is, and a list test if one of them is. -/
def combined (ms : List Modifier) : Modifier := .of (ms.countP isNegated % 2 == 1) (ms.any isListed)

/-- The order of markers does not matter. -/
theorem turn_reverse (markers : List Marker) (m : Modifier) : m.turn markers.reverse = m.turn markers := by
  simp [turn]

theorem turn_markers (m m' : Modifier) :
    m'.turn m.markers = .of (m'.isNegated ^^ m.isNegated) (m'.isListed || m.isListed) := by
  cases m <;> rfl

theorem combined_singleton (m : Modifier) : combined [m] = m := by
  cases m <;> rfl

/-- One more `NOT` changes the parity. -/
theorem combined_cons (m : Modifier) (ms : List Modifier) : combined (m :: ms) = (combined ms).turn m.markers := by
  have hparity : ((m :: ms).countP isNegated % 2 == 1) = ((ms.countP isNegated % 2 == 1) ^^ m.isNegated) := by
    rw [List.countP_cons]
    rcases Nat.mod_two_eq_zero_or_one (ms.countP isNegated) with heven | hodd
    · cases hm : m.isNegated with
      | false => simp [heven]
      | true =>
        have hnext : (ms.countP isNegated + 1) % 2 = 1 := by omega
        simp [heven, hnext]
    · cases hm : m.isNegated with
      | false => simp [hodd]
      | true =>
        have hnext : (ms.countP isNegated + 1) % 2 = 0 := by omega
        simp [hodd, hnext]
  rw [turn_markers, combined, hparity, List.any_cons, Bool.or_comm]
  simp [combined]

end Modifier

/-! ## Nested arrays -/

/-- The clause of a leaf inside further arrays, each with its markers in front. -/
def Leaf.wrapped (l : Leaf) : List Modifier → List Node
  | [] => l.nodes
  | m :: inner => m.words ++ [.group (l.wrapped inner)]

theorem Leaf.simple_clause (l : Leaf) : l.clause.Simple := by
  have hcount : ∀ m : Modifier, m.markers.reverse.count .not ≤ 1 := by
    intro m
    cases m <;> decide
  exact hcount l.modifier

namespace Grouping

/-- The words of a modifier wait in the draft. -/
theorem gather_modifier (conjoined : Bool) (m : Modifier) :
    gather conjoined {} m.words = .ok { draft := .withMarkers m.markers.reverse } := by
  have hnot : Gathered.condition {} "NOT" = { draft := .withMarkers [.not] } := by
    simp only [Gathered.condition, Marker.ofCondition?_not]
  have hin : ∀ g : Gathered, g.condition "IN" = { g with draft := g.draft.mark .inList } := fun g => by
    simp only [Gathered.condition, Marker.ofCondition?_in]
  cases m with
  | plain => rfl
  | not => exact bind_eq_ok.mpr ⟨_, gatherNode_word _ _ _, by rw [hnot]; rfl⟩
  | inList => exact bind_eq_ok.mpr ⟨_, gatherNode_word _ _ _, by rw [hin]; rfl⟩
  | notInList =>
    refine bind_eq_ok.mpr ⟨_, gatherNode_word _ _ _, bind_eq_ok.mpr ⟨_, gatherNode_word _ _ _, ?_⟩⟩
    rw [hnot, hin]
    rfl

/-- One level: the array inside, turned by the words in front of it. -/
theorem reduce_words_array (m : Modifier) (a : List Node) :
    reduce [] (m.words ++ [.group a]) = reduce m.markers.reverse a := by
  rw [reduce, gather_append, gather_modifier]
  show (gather _ _ [.group a] >>= _) = _
  simp only [gather, gatherNode_group]
  have hpending : (Draft.withMarkers m.markers.reverse).pendingMarkers = m.markers.reverse := rfl
  rw [hpending]
  cases reduce m.markers.reverse a with
  | error e => rfl
  | ok member => cases member <;> rfl

/-- **The levels of a nested clause**, by induction from the outermost: it reduces to one clause, whose modifier is
that of all levels together. -/
theorem exists_reduce_wrapped (l : Leaf) (ms : List Modifier) :
    ∃ c, reduce [] (l.wrapped ms) = .ok (some (.clause c)) ∧ c.Simple ∧
      c.leaf = ⟨l.condition, .combined (ms ++ [l.modifier])⟩ := by
  induction ms with
  | nil =>
    refine ⟨l.clause, reduce_leaf l, l.simple_clause, ?_⟩
    rw [List.nil_append, Modifier.combined_singleton, Leaf.leaf_clause]
  | cons m inner ih =>
    obtain ⟨c, hreduce, hsimple, hleaf⟩ := ih
    refine ⟨c.turned m.markers.reverse, ?_, Clause.simple_turned _ hsimple, ?_⟩
    · rw [Leaf.wrapped, reduce_words_array, reduce_of_clause hreduce]
    · rw [Clause.leaf_turned _ hsimple, hleaf, List.cons_append, Modifier.combined_cons, Leaf.turn, Modifier.turn_reverse]

end Grouping

/-- **Negation parity.** A clause in nested arrays, each with `NOT`, `IN` or both in front, is applied as the one
condition that it is: negated if the number of all `NOT`s, the one in the clause included, is odd, and as a list test if
there is an `IN` among the markers. -/
theorem Query.applyGroup_wrapped (q : Query) (outer : Option Combinator) (l : Leaf) (first : Modifier)
    (inner : List Modifier) :
    q.applyGroup first.markers outer (l.wrapped inner) =
      q.apply (outer.getD .or).family (.combined (first :: inner ++ [l.modifier])) l.condition := by
  obtain ⟨c, hreduce, hsimple, hleaf⟩ := exists_reduce_wrapped l inner
  have hturned : (c.turned first.markers).leaf = ⟨l.condition, .combined (first :: inner ++ [l.modifier])⟩ := by
    rw [Clause.leaf_turned _ hsimple, hleaf, List.cons_append, Modifier.combined_cons]
    rfl
  rw [Query.applyGroup, reduce_of_clause hreduce]
  show q.applyExpr (outer.getD .or) (.clause (c.turned first.markers)) = _
  rw [Query.applyExpr, Filter.addExpr_clause_eq, hturned, Query.apply]

end DocQuery
