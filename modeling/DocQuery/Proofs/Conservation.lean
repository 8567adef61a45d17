import DocQuery.Proofs.Attributes
import DocQuery.Proofs.Filter.Members
import Mathlib.Data.List.Perm.Basic

/-!
# No condition is lost, duplicated or invented

`Filter.Carries style f ls`: the filter `f` is regular, and its atoms are those of the leaves `ls`. Each addition to a
filter carries one leaf more (`Carries.conjoin`, `Carries.push`), hence expressions and parts carry their leaves
(`Carries.addExpr`, `Carries.takesAll`), wherever in the filter they end up.

`atoms_compile`: the atoms of a compiled filter are those of the conditions that the values of the filter clauses
complete, one condition for each value, and the existence of the counted attributes.
-/

namespace DocQuery

namespace Filter

variable {style : LikeStyle} {f f' : Filter} {ls : List Leaf}

structure Carries (style : LikeStyle) (f : Filter) (ls : List Leaf) : Prop where
  regular : f.Regular
  atoms : f.atoms.Perm (ls.flatMap (Leaf.atoms style))
  emitted : ∀ l ∈ ls, ∃ fragment, l.fragment style = .ok fragment

namespace Carries

theorem empty : Carries style [] [] := ⟨.empty, .refl _, by simp⟩

/-- An addition that carries the atoms of some more leaves. -/
theorem extend {ls' : List Leaf} {added : List Atom} (h : f.Carries style ls) (hr : f'.Regular)
    (hatoms : f'.atoms.Perm (f.atoms ++ added)) (hadded : added.Perm (ls'.flatMap (Leaf.atoms style)))
    (hemitted : ∀ l ∈ ls', ∃ fragment, l.fragment style = .ok fragment) : f'.Carries style (ls ++ ls') where
  regular := hr
  atoms := by
    rw [List.flatMap_append]
    exact hatoms.trans (h.atoms.append hadded)
  emitted := List.forall_mem_append.mpr ⟨h.emitted, hemitted⟩

theorem conjoin {l : Leaf} {fragment : Json} (h : f.Carries style ls) (hl : l.Proper)
    (hf : l.fragment style = .ok fragment) : (f.conjoin l.condition.key fragment).Carries style (ls ++ [l]) := by
  refine h.extend (h.regular.conjoin hl.key fragment)
    (atoms_conjoin h.regular hl.key (hl.hasUniqueKeys_fragment hf)) ?_ (by simp [hf])
  rw [List.flatMap_singleton, Leaf.atoms_eq hf]

theorem push {l : Leaf} {fragment : Json} (join : Combinator) (h : f.Carries style ls) (hl : l.Proper)
    (hf : l.fragment style = .ok fragment) :
    (f.push join (.single l.condition.key fragment)).Carries style (ls ++ [l]) := by
  refine h.extend (h.regular.push join _) (atoms_push h.regular join _) ?_ (by simp [hf])
  rw [List.flatMap_singleton, Leaf.atoms_eq hf, atoms_single hl.key]

theorem graft {nested : Filter} {ls' : List Leaf} (join : Combinator) (h : f.Carries style ls)
    (hn : nested.Carries style ls') : (f.graft join nested).Carries style (ls ++ ls') := by
  exact h.extend (h.regular.graft join nested) (atoms_graft h.regular join nested) hn.atoms hn.emitted

/-! ## Expressions -/

mutual

theorem addMember : ∀ {e : Expr} {join : Combinator} {f f' : Filter} {ls : List Leaf}, (∀ l ∈ e.leaves, l.Proper) →
    f.Carries style ls → Filter.addMember style join f e = .ok f' → f'.Carries style (ls ++ e.leaves)
  | .clause c, _, _, _, _, hproper, hs, h => by
    obtain ⟨fragment, hf, rfl⟩ := addMember_clause h
    have hl : c.leaf.Proper := hproper c.leaf (by simp [Expr.leaves, Expr.clauses])
    split
    · exact hs.conjoin hl hf
    · exact hs.push .or hl hf
  | .group _ _, join, _, _, _, hproper, hs, h => by
    obtain ⟨nested, hn, rfl⟩ := addMember_group h
    exact hs.graft join (addMembers hproper .empty hn)

theorem addMembers : ∀ {members : List Expr} {join : Combinator} {f f' : Filter} {ls : List Leaf},
    (∀ l ∈ Expr.leavesAll members, l.Proper) → f.Carries style ls →
      Filter.addMembers style join f members = .ok f' → f'.Carries style (ls ++ Expr.leavesAll members)
  | [], _, _, _, _, _, hs, h => by
    cases h
    simpa [Expr.leavesAll, Expr.clausesAll] using hs
  | e :: rest, join, _, _, _, hproper, hs, h => by
    obtain ⟨f₁, h₁, h₂⟩ := addMembers_cons h
    rw [Expr.leavesAll_cons, List.forall_mem_append] at hproper
    have hs' := addMembers hproper.2 (addMember hproper.1 hs h₁) h₂
    rwa [List.append_assoc, ← Expr.leavesAll_cons] at hs'

end

theorem addExpr {e : Expr} {join : Combinator} (hproper : ∀ l ∈ e.leaves, l.Proper) (hs : f.Carries style ls)
    (h : f.addExpr style join e = .ok f') : f'.Carries style (ls ++ e.leaves) := by
  cases e with
  | clause c =>
    obtain ⟨fragment, hf, rfl⟩ := addExpr_clause h
    exact hs.push join (hproper c.leaf (by simp [Expr.leaves, Expr.clauses])) hf
  | group inner members =>
    obtain ⟨nested, hn, rfl⟩ := addExpr_group h
    exact hs.graft join (addMembers hproper .empty hn)

/-! ## Parts -/

theorem takes {p : Part} (hproper : ∀ l ∈ p.leaves, l.Proper) (hs : f.Carries style ls)
    (h : Filter.Takes style f p f') : f'.Carries style (ls ++ p.leaves) := by
  cases h with
  | @leaf l fragment hf => exact hs.conjoin (hproper l (by simp [Part.leaves, Part.demand, Demand.leaves])) hf
  | array hr ha =>
    rw [Part.leaves_array _ hr, Option.toList_some, Expr.leavesAll_singleton] at hproper ⊢
    exact hs.addExpr hproper ha
  | nothing hr =>
    rw [Part.leaves_array _ hr]
    simpa [Expr.leavesAll, Expr.clausesAll] using hs

theorem takesAll {ps : List Part} (hproper : ∀ p ∈ ps, ∀ l ∈ p.leaves, l.Proper) (hs : f.Carries style ls)
    (h : Filter.TakesAll style f ps f') : f'.Carries style (ls ++ ps.flatMap Part.leaves) := by
  induction h generalizing ls with
  | nil f => simpa using hs
  | cons hp _ ih =>
    rw [List.forall_mem_cons] at hproper
    have hs' := ih hproper.2 (hs.takes hproper.1 hp)
    rwa [List.append_assoc, ← List.flatMap_cons] at hs'

end Carries

end Filter

/-! ## One condition for each value -/

/-- The leaves of an array that is reduced have its values. -/
theorem Grouping.values_leaves {markers : List Marker} {nodes : List Node} {member : Option Expr} (join : Combinator)
    (h : reduce markers nodes = .ok member) :
    (Part.array join markers nodes).leaves.map (·.condition.value) = Group.values nodes := by
  rw [Part.leaves_array join h, (keeps_of_reduce join h).values]

namespace Cursor

variable {c c' : Cursor}

theorem values_conditionStep {node : Node} (h : ConditionStep c node c') :
    ((c.reader.part? node).toList.flatMap Part.leaves).map (·.condition.value) = node.values := by
  cases h with
  | array h =>
    rw [Reader.part?, Option.toList_some, List.flatMap_singleton]
    obtain ⟨member, hr⟩ := (Query.takes_of_applyGroup h).2.reduce_eq_ok
    exact Grouping.values_leaves _ hr
  | value hd _ =>
    unfold Draft.complete at hd
    split at hd
    · rename_i key hkey _
      simp [Reader.part?, reader, Draft.leaf?, hkey, Part.leaves, Part.demand, Demand.leaves, Node.values, Node.tokens]
    · cases hd
  | key _ | operator _ | word _ => simp [Reader.part?, Draft.leaf?, Node.values, Node.tokens]

theorem values_run (hs : c.scope = .conditions) {nodes : List Node} (hn : ∀ node ∈ nodes, node.identifier? = none)
    (h : c.run nodes = .ok c') :
    ((c.reader.parts nodes).flatMap Part.leaves).map (·.condition.value) = Group.values nodes := by
  induction nodes generalizing c with
  | nil => rfl
  | cons node rest ih =>
    rw [run_cons, bind_eq_ok] at h
    obtain ⟨c₁, hstep, hrest⟩ := h
    have hnode := hn node List.mem_cons_self
    have hs₁ : c₁.scope = .conditions := by rw [(step_frame hnode hstep).1, hs]
    have hcond := step_conditions hs hnode hstep
    have hvalues := ih hs₁ (fun n h => hn n (List.mem_cons_of_mem _ h)) hrest
    rw [(takesAll_conditionStep hcond).1] at hvalues
    rw [Reader.parts, List.flatMap_append, List.map_append, values_conditionStep hcond, hvalues, Group.values_cons]

end Cursor

/-! ## Trees -/

/-- The leaves of a filter clause. -/
def Segment.leaves (s : Segment) : List Leaf :=
  if s.identifier = .where_ then (Reader.parts {} s.nodes).flatMap Part.leaves else []

def Segment.values (s : Segment) : List Json := if s.identifier = .where_ then Group.values s.nodes else []

/-- The attributes of a counting clause. -/
def Segment.counted (s : Segment) : List String :=
  if s.identifier = .count then s.nodes.flatMap Node.counted else []

namespace Tree

/-- The conditions of all filter clauses, in the order of the document. -/
def leaves (tree : Tree) : List Leaf := tree.segments.flatMap Segment.leaves

/-- The payloads of all values in filter clauses, at any depth. -/
def values (tree : Tree) : List Json := tree.segments.flatMap Segment.values

/-- The attributes of all counting clauses. -/
def counted (tree : Tree) : List String := tree.segments.flatMap Segment.counted

end Tree

theorem Segment.values_leaves {q q' : Query} {s : Segment} (hn : ∀ node ∈ s.nodes, node.identifier? = none)
    (h : q.readClause s = .ok q') : s.leaves.map (·.condition.value) = s.values := by
  unfold Segment.leaves Segment.values
  split
  · rename_i hi
    unfold Query.readClause Cursor.finish at h
    rw [bind_eq_ok] at h
    obtain ⟨c, hrun, _⟩ := h
    exact Cursor.values_run (c := q.openClause s.identifier) (by rw [hi]; rfl) hn hrun
  · rfl

/-- The atom of an attribute that exists. -/
def Atom.existence (attr : String) : Atom := (attr, .single "$exists" (.bool true))

theorem Leaf.atoms_existence (style : LikeStyle) (attr : String) :
    (existence attr).atoms style = [.existence attr] := by
  rw [Leaf.atoms_eq (fragment_existence style attr)]
  rfl

theorem atoms_countedParts (style : LikeStyle) (attributes : List String) :
    ((Query.countedParts .existence attributes).flatMap Part.leaves).flatMap (Leaf.atoms style) =
      attributes.map .existence := by
  rw [Query.countedParts]
  induction attributes with
  | nil => rfl
  | cons attr rest ih =>
    have hleaves : (Part.leaf (.existence attr)).leaves = [.existence attr] := rfl
    rw [List.map_cons, List.flatMap_cons, List.flatMap_append, ih, hleaves, List.flatMap_singleton,
      Leaf.atoms_existence]
    rfl

/-- The conditions of a clause are its leaves, or the existence of its attributes. -/
theorem Segment.atoms_parts (style : LikeStyle) (count : CountStyle) (s : Segment) :
    ((s.parts count).flatMap Part.leaves).flatMap (Leaf.atoms style) =
      s.leaves.flatMap (Leaf.atoms style) ++ if count = .existence then s.counted.map .existence else [] := by
  by_cases hi : s.identifier = .where_
  · rw [parts_where hi]
    simp [Segment.leaves, Segment.counted, hi]
  · rw [parts_of_ne_where hi]
    simp only [Segment.leaves, Segment.counted, hi, ↓reduceIte, List.flatMap_nil, List.nil_append]
    split
    · cases count with
      | pipeline => rfl
      | existence => exact atoms_countedParts style _
    · simp

theorem Tree.mem_leaves_parts {tree : Tree} {l : Leaf} (count : CountStyle) (h : l ∈ tree.leaves) :
    l ∈ (tree.parts count).flatMap Part.leaves := by
  obtain ⟨s, hs, hl⟩ := List.mem_flatMap.mp h
  rw [Tree.parts, List.flatMap_assoc]
  refine List.mem_flatMap.mpr ⟨s, hs, ?_⟩
  unfold Segment.leaves at hl
  split at hl
  · rename_i hi
    rwa [Segment.parts_where hi]
  · cases hl

/-- The conditions of all filter clauses come first, and then those of all counting clauses. -/
theorem Tree.atoms_parts (style : LikeStyle) (count : CountStyle) (tree : Tree) :
    (((tree.parts count).flatMap Part.leaves).flatMap (Leaf.atoms style)).Perm
      (tree.leaves.flatMap (Leaf.atoms style) ++
        if count = .existence then tree.counted.map .existence else []) := by
  have hcounted : (if count = .existence then tree.counted.map Atom.existence else []) =
      tree.segments.flatMap fun s => if count = .existence then s.counted.map .existence else [] := by
    split
    · rw [Tree.counted, List.map_flatMap]
    · simp
  rw [hcounted, Tree.parts, Tree.leaves, List.flatMap_assoc, List.flatMap_assoc, List.flatMap_assoc]
  refine List.Perm.trans ?_ (List.flatMap_append_perm _ _ _).symm
  refine List.Perm.of_eq (List.flatMap_congr fun s _ => ?_)
  rw [← Segment.atoms_parts, List.flatMap_assoc]

/-- **No condition is lost, duplicated or invented.** Every value in a filter clause completes one condition, which has
a fragment; the atoms of the filter are those of these conditions, and the existence of the counted attributes if that
is how the dialect counts; and no array drops or moves a value when it is reduced. -/
theorem atoms_compile {dialect : Dialect} {tree : Tree} {q : Query} (h : compile dialect tree = .ok q)
    (hunique : tree.HasUniqueKeys) (hconnectives : tree.AvoidsConnectives) :
    tree.leaves.map (·.condition.value) = tree.values ∧
    (∀ l ∈ tree.leaves, ∃ fragment, l.fragment dialect.like = .ok fragment) ∧
    q.filter.atoms.Perm (tree.leaves.flatMap (Leaf.atoms dialect.like) ++
      if dialect.count = .existence then tree.counted.map .existence else []) ∧
    ∀ markers nodes member, Grouping.reduce markers nodes = .ok member →
      (Expr.leavesAll member.toList).map (·.condition.value) = Group.values nodes := by
  have hcarries : q.filter.Carries dialect.like ([] ++ (tree.parts dialect.count).flatMap Part.leaves) :=
    Filter.Carries.empty.takesAll (Tree.proper_parts hconnectives hunique dialect.count) (takesAll_of_compile h)
  refine ⟨?_, ?_, ?_, fun markers nodes member hr => (Grouping.keeps_of_reduce .or hr).values⟩
  · rw [Tree.leaves, Tree.values, List.map_flatMap]
    refine List.flatMap_congr fun s hs => ?_
    obtain ⟨q₀, q₁, hread⟩ := readClause_of_compile h hs
    exact Segment.values_leaves (Tree.identifier?_of_mem_segments hs) hread
  · intro l hl
    exact hcarries.emitted l (Tree.mem_leaves_parts dialect.count hl)
  · exact hcarries.atoms.trans (Tree.atoms_parts dialect.like dialect.count tree)

/-- An attribute that is counted and compared twice, and a negated array. -/
def Group.compared : List Node := [
  .token ⟨.key, .str "a"⟩, .token ⟨.operator, .str ">"⟩, .token ⟨.value, .int 1⟩,
  .token ⟨.operator, .str ">"⟩, .token ⟨.value, .int 2⟩,
  .token ⟨.condition, .str "NOT"⟩, .group [.token ⟨.key, .str "b"⟩, .token ⟨.value, .int 3⟩]]

def Tree.compared : Tree :=
  ⟨[[.token ⟨.identifier, .str "COUNT"⟩, .token ⟨.value, .str "a"⟩],
    .token ⟨.identifier, .str "WHERE"⟩ :: Group.compared]⟩

def Filter.compared : Filter := [
  ("a", .obj [("$exists", .bool true), ("$gt", .int 1)]), ("$and", .arr [.single "a" (.single "$gt" (.int 2))]),
  ("$or", .arr [.single "b" (.single "$ne" (.int 3))])]

theorem atoms_compile_compared : ∃ q, compile { count := .existence } Tree.compared = .ok q ∧
    q.filter = Filter.compared ∧
    Tree.compared.leaves =
      [⟨⟨"a", some ">", .int 1⟩, .plain⟩, ⟨⟨"a", some ">", .int 2⟩, .plain⟩, ⟨⟨"b", none, .int 3⟩, .not⟩] ∧
    Tree.compared.leaves.map (·.condition.value) = Tree.compared.values ∧
    Tree.compared.values = [.int 1, .int 2, .int 3] ∧
    (∀ l ∈ Tree.compared.leaves, ∃ fragment, l.fragment .regex = .ok fragment) ∧
    q.filter.atoms.Perm [("a", .single "$gt" (.int 1)), ("a", .single "$gt" (.int 2)), ("b", .single "$ne" (.int 3)),
      ("a", .single "$exists" (.bool true))] ∧
    ∀ markers nodes member, Grouping.reduce markers nodes = .ok member →
      (Expr.leavesAll member.toList).map (·.condition.value) = Group.values nodes := by
  have hcount : Identifier.ofName "COUNT" = .count := by decide +kernel
  have hwhere : Identifier.ofName "WHERE" = .where_ := by decide +kernel
  have hsegments : Tree.compared.segments =
      [⟨.count, [.token ⟨.value, .str "a"⟩]⟩, ⟨.where_, Group.compared⟩] := by
    simp [Tree.segments, Tree.compared, Group.compared, Group.cut, Node.identifier?, hcount, hwhere]
  have hunique : Tree.compared.HasUniqueKeys := by
    unfold Tree.HasUniqueKeys
    decide
  have hconnectives : Tree.compared.AvoidsConnectives := by
    constructor
    · rw [hsegments]
      decide
    · rw [hsegments]
      decide
  have hfilter : (compile { count := .existence } Tree.compared).toOption.map Query.filter = some Filter.compared := by
    decide +kernel
  have hok : (compile { count := .existence } Tree.compared).isOk = true := by decide +kernel
  obtain ⟨q, hq⟩ := exists_eq_ok hok
  rw [hq] at hfilter
  obtain ⟨hvalues, hemitted, hatoms, hreduce⟩ := atoms_compile hq hunique hconnectives
  refine ⟨q, hq, Option.some.inj hfilter, by decide +kernel, hvalues, by decide +kernel, hemitted, ?_, hreduce⟩
  have hleaves : Tree.compared.leaves.flatMap (Leaf.atoms .regex) ++ Tree.compared.counted.map .existence =
      [("a", .single "$gt" (.int 1)), ("a", .single "$gt" (.int 2)), ("b", .single "$ne" (.int 3)),
        ("a", .single "$exists" (.bool true))] := by
    decide +kernel
  rwa [← hleaves]

end DocQuery
