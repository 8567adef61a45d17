import DocQuery.Proofs.EmptyArrays.Trees

/-!
# Redundant parentheses

An array that holds one array and nothing else says what the inner array says. The extra level goes through the same
reduction: it counts no value, finds one member or none, and hands the markers in front of it on to that member
(`Grouping.reduce_parenthesized`). So an array in a filter clause can be put into another array, at any depth, and the
tree compiles as before (`compile_parenthesized`).
-/

namespace DocQuery

open Grouping

namespace Grouping

/-- Markers that turn what a group has been closed to turn the group. -/
theorem Gathered.close_nil_bind (g : Gathered) (markers : List Marker) :
    (g.close [] >>= fun member => Gathered.close { members := member.toList } markers) = g.close markers := by
  obtain ⟨draft, combinator, members⟩ := g
  rcases members with _ | ⟨e, _ | ⟨e', rest⟩⟩
  · rfl
  · rfl
  · rfl

/-- Markers in front of an array turn what it reduces to without them. -/
theorem reduce_eq_close (markers : List Marker) (a : List Node) :
    reduce markers a = reduce [] a >>= fun member => Gathered.close { members := member.toList } markers := by
  rw [reduce, reduce, bind_assoc]
  exact bind_congr_ok fun g _ => (g.close_nil_bind markers).symm

/-- Markers in front of an array of one clause turn that clause. -/
theorem reduce_of_clause {a : List Node} {c : Clause} (h : reduce [] a = .ok (some (.clause c)))
    (markers : List Marker) : reduce markers a = .ok (some (.clause (c.turned markers))) := by
  rw [reduce_eq_close, h]
  show ((Expr.clause c).inherit markers >>= fun e => .ok (some e)) = _
  rw [Expr.inherit_clause]
  rfl

/-- **An array in an array of its own** reduces to the same expression, or fails for the same reason. -/
theorem reduce_parenthesized (markers : List Marker) (a : List Node) :
    reduce markers [.group a] = reduce markers a := by
  rw [reduce_eq_close markers a, reduce]
  simp only [gather, gatherNode_group, bind_assoc]
  rfl

end Grouping

namespace ArrayPlace

variable (p : ArrayPlace) (a : List Node)

theorem applyGroup_parenthesized (q : Query) (markers : List Marker) (outer : Option Combinator) :
    q.applyGroup markers outer (p.path.fill [.group a]) = q.applyGroup markers outer (p.path.fill a) := by
  have hreduce : reduce markers (p.path.fill [.group a]) = reduce markers (p.path.fill a) :=
    ArrayPath.reduce_congr (fun markers => reduce_parenthesized markers a) p.path markers
  simp only [Query.applyGroup, hreduce]

end ArrayPlace

/-- **Redundant parentheses.** Every array inside a filter clause has a place, at any depth. With that array in an array
of its own, the tree compiles to the same query, or fails with the same error. -/
theorem compile_parenthesized (dialect : Dialect) :
    (∀ (tree : Tree), ∀ s ∈ tree.segments, s.identifier = .where_ → ∀ a ∈ Group.arrays s.nodes,
      ∃ p : ArrayPlace, tree = p.fill a) ∧
    ∀ (p : ArrayPlace) (a : List Node), compile dialect (p.fill [.group a]) = compile dialect (p.fill a) := by
  constructor
  · intro tree s hs hi a ha
    exact Tree.exists_arrayPlace hs hi ha
  · intro p a
    exact p.compile_congr (p.applyGroup_parenthesized a) dialect

/-- A place in a negated array, in front of a clause. -/
def ArrayPlace.negated : ArrayPlace where
  clause := ⟨[], [], "WHERE", [], [], Group.cut_nil⟩
  isFilter := by decide +kernel
  pre := [.token ⟨.condition, .str "NOT"⟩]
  post := [.token ⟨.key, .str "a"⟩, .token ⟨.value, .int 1⟩]
  free := by simp [Node.identifier?]
  path := [([], [])]

def Group.listing : List Node :=
  [.token ⟨.key, .str "b"⟩, .token ⟨.condition, .str "IN"⟩, .token ⟨.value, .arr [.int 2, .int 3]⟩]

theorem compile_parenthesized_negated :
    (∃ p : ArrayPlace, ArrayPlace.negated.fill Group.listing = p.fill Group.listing) ∧
    (compile {} (ArrayPlace.negated.fill Group.listing)).isOk = true ∧
    compile {} (ArrayPlace.negated.fill [.group Group.listing]) =
      compile {} (ArrayPlace.negated.fill Group.listing) := by
  have hwhere : Identifier.ofName "WHERE" = .where_ := by decide +kernel
  have hsegment : ⟨.where_, ArrayPlace.negated.nodes Group.listing⟩ ∈
      (ArrayPlace.negated.fill Group.listing).segments := by
    simp [Tree.segments, ArrayPlace.fill, Place.fill, Place.group, ArrayPlace.negated, ArrayPlace.nodes, Group.cut,
      Node.identifier?, hwhere]
  have harray : Group.listing ∈ Group.arrays (ArrayPlace.negated.nodes Group.listing) := by
    simp [ArrayPlace.nodes, ArrayPlace.negated, ArrayPath.fill, Group.arrays, Node.arrays]
  exact ⟨(compile_parenthesized {}).1 _ _ hsegment rfl _ harray, by decide +kernel,
    (compile_parenthesized {}).2 ArrayPlace.negated Group.listing⟩

end DocQuery
