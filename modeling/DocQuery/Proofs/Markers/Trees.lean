import DocQuery.Proofs.Conservation
import DocQuery.Proofs.EmptyArrays.Trees
import DocQuery.Proofs.Filter.Additions
import DocQuery.Proofs.Markers.Operands

/-!
# Markers in front of operands of trees

What becomes of an operand with a marker in front, in a tree that compiles. At the top of a filter clause the marker is
always taken into account, whatever came before it: there it waits apart from the clause in the making. In an array of
the clause `NOT` is, too, but `IN` is lost after a key that stands open, and the tree compiles as without it
(`compile_operand`).

`Query.Emits` says that a condition has reached the filter: it stands at its place among the conditions of the tree, and
these are, in their order, among the additions that make the filter.
-/

namespace DocQuery

open Grouping

/-! ## Leaves of filter clauses -/

namespace Reader

/-- The leaves of the nodes of a filter clause, after the reader `r`. -/
def leaves (r : Reader) (nodes : List Node) : List Leaf := (r.parts nodes).flatMap Part.leaves

theorem leaves_append (r : Reader) (xs ys : List Node) :
    r.leaves (xs ++ ys) = r.leaves xs ++ (xs.foldl after r).leaves ys := by
  rw [leaves, parts_append, List.flatMap_append]
  rfl

theorem leaves_array_cons (r : Reader) (a rest : List Node) :
    r.leaves (.group a :: rest) =
      (Group.leaves {} a).map (Leaf.turn r.modifiers.markers) ++ (r.after (.group a)).leaves rest := by
  rw [← Group.leaves_demand (r.combinator.getD .or)]
  rfl

theorem leaves_word_cons (r : Reader) (word : String) (rest : List Node) :
    r.leaves (.word word :: rest) = (r.word word).leaves rest := rfl

/-- Every marker waits at the top of a clause. -/
theorem mem_markers_word (r : Reader) {word : String} {m : Marker} (hm : Marker.ofCondition? word = some m)
    (hand : m ≠ .and) : m ∈ (r.word word).modifiers.markers := by
  cases m with
  | and => exact absurd rfl hand
  | not => simp [Reader.word, hm, Modifiers.push]
  | inList => simp [Reader.word, hm, Modifiers.push]

/-- **An operand becomes its leaf**, turned by the markers that wait in front of it. -/
theorem leaves_operand {r : Reader} (hr : r.draft.Settled) (x : Operand) :
    r.leaves x.nodes = [x.leaf.turn r.modifiers.markers] := by
  cases x with
  | array nodes c h =>
    rw [Operand.nodes, leaves_array_cons, Operand.leaves_of_reduce h]
    rfl
  | clause c =>
    obtain ⟨modifiers, combinator, d⟩ := r
    obtain ⟨key, operator, value⟩ := c
    have hkey : d.setKey key = { key := some key } := hr.setKey key
    have hplain : ∀ c : Condition, Leaf.turn modifiers.markers ⟨c, .plain⟩ = ⟨c, modifiers.resolved⟩ :=
      Leaf.turn_plain modifiers.markers
    rw [Operand.leaf, hplain]
    cases operator <;>
      simp [Operand.nodes, Node.comparison, leaves, parts, part?, after, hkey, Draft.leaf?, Part.leaves, Part.demand,
        Demand.leaves]

end Reader

namespace Cursor

variable {c c' : Cursor}

/-- A run of nodes: what waits has been read off them. -/
theorem reader_run (hs : c.scope = .conditions) {nodes : List Node} (hn : ∀ node ∈ nodes, node.identifier? = none)
    (h : c.run nodes = .ok c') : c'.reader = nodes.foldl Reader.after c.reader := by
  induction nodes generalizing c with
  | nil =>
    cases h
    rfl
  | cons node rest ih =>
    rw [run_cons, bind_eq_ok] at h
    obtain ⟨c₁, hstep, hrest⟩ := h
    rw [List.forall_mem_cons] at hn
    have hs₁ : c₁.scope = .conditions := by rw [(step_frame hn.1 hstep).1, hs]
    have hnext := ih hs₁ hn.2 hrest
    rwa [(takesAll_conditionStep (step_conditions hs hn.1 hstep)).1] at hnext

end Cursor

/-! ## Conditions that reach the filter -/

theorem Filter.Takes.leaves_additions {style : LikeStyle} {f f' : Filter} {p : Part} (h : Takes style f p f') :
    Addition.leavesAll p.additions = p.leaves := by
  cases h with
  | leaf _ => rfl
  | array hr _ =>
    rw [Part.leaves_array _ hr, Part.additions, hr, Option.toList_some, Expr.leavesAll_singleton, ← Expr.leaves_joined]
    exact List.append_nil _
  | nothing hr =>
    rw [Part.leaves_array _ hr, Part.additions, hr]
    rfl

theorem Filter.TakesAll.leaves_additions {style : LikeStyle} {f f' : Filter} {ps : List Part}
    (h : TakesAll style f ps f') : Addition.leavesAll (ps.flatMap Part.additions) = ps.flatMap Part.leaves := by
  induction h with
  | nil _ => rfl
  | cons hp _ ih =>
    rw [Addition.leavesAll_eq] at ih ⊢
    rw [List.flatMap_cons, List.flatMap_append, List.flatMap_cons, ih, ← Addition.leavesAll_eq, hp.leaves_additions]

theorem Segment.leaves_sublist (count : CountStyle) (s : Segment) :
    s.leaves.Sublist ((s.parts count).flatMap Part.leaves) := by
  unfold Segment.leaves
  split
  · rename_i hi
    rw [parts_where hi]
  · exact List.nil_sublist _

theorem Tree.leaves_sublist (count : CountStyle) (tree : Tree) :
    tree.leaves.Sublist ((tree.parts count).flatMap Part.leaves) := by
  rw [Tree.leaves, Tree.parts, List.flatMap_assoc]
  induction tree.segments with
  | nil => exact List.Sublist.slnil
  | cons s rest ih =>
    rw [List.flatMap_cons, List.flatMap_cons]
    exact (s.leaves_sublist count).append ih

/-- The condition `l`, after those with the values `before`, has reached the filter of the query. -/
structure Query.Emits (q : Query) (dialect : Dialect) (tree : Tree) (before : List Json) (l : Leaf) : Prop where
  stands : l.StandsAt before tree.leaves
  added : tree.leaves.Sublist (Addition.leavesAll (tree.additions dialect.count))
  performed : Filter.performAll dialect.like [] (tree.additions dialect.count) = .ok q.filter

/-! ## Places in filter clauses -/

namespace Place

variable {p : Place} {dialect : Dialect} {nodes : List Node} {q : Query}

/-- The values of the filter clauses before the place. -/
def valuesBefore (p : Place) : List Json :=
  (Tree.segments ⟨p.groups⟩ ++ (Group.cut p.before).2).flatMap Segment.values

/-- What stands in the clause reaches the filter. -/
theorem emits {l : Leaf} {before : List Json} (hi : p.identifier = .where_) (hn : ∀ n ∈ nodes, n.identifier? = none)
    (h : compile dialect (p.fill nodes) = .ok q) (hl : l.StandsAt before (Reader.leaves {} nodes)) :
    q.Emits dialect (p.fill nodes) (p.valuesBefore ++ before) l where
  stands := by
    let front := Tree.segments ⟨p.groups⟩ ++ (Group.cut p.before).2
    have hsegments := p.segments_fill hn
    have hvalues : (front.flatMap Segment.leaves).map (·.condition.value) = p.valuesBefore := by
      rw [valuesBefore, List.map_flatMap]
      refine List.flatMap_congr fun s hs => ?_
      have hmem : s ∈ (p.fill nodes).segments := by
        rw [hsegments]
        exact List.mem_append_left _ hs
      obtain ⟨q₀, q₁, hread⟩ := readClause_of_compile h hmem
      exact Segment.values_leaves (Tree.identifier?_of_mem_segments hmem) hread
    have hclause : Segment.leaves ⟨p.identifier, nodes⟩ = Reader.leaves {} nodes := if_pos hi
    rw [Tree.leaves, hsegments, List.flatMap_append, List.flatMap_cons, hclause, ← hvalues]
    exact hl.append _ _
  added := by
    rw [Tree.additions, (takesAll_of_compile h).leaves_additions]
    exact Tree.leaves_sublist _ _
  performed := performAll_of_compile h

/-- The nodes in front of others in the clause: after them the draft is settled, and their values have become leaves. -/
theorem read_front {pre post : List Node} (hi : p.identifier = .where_)
    (hn : ∀ n ∈ pre ++ post, n.identifier? = none) (h : compile dialect (p.fill (pre ++ post)) = .ok q) :
    (pre.foldl Reader.after {}).draft.Settled ∧
      (Reader.leaves {} pre).map (·.condition.value) = Group.values pre := by
  obtain ⟨q₀, q₁, hread⟩ := readClause_of_compile h (p.mem_segments_fill hn)
  unfold Query.readClause Cursor.finish at hread
  obtain ⟨c', hrun, _⟩ := bind_eq_ok.mp hread
  rw [Cursor.run_append, bind_eq_ok] at hrun
  obtain ⟨c, hpre, _⟩ := hrun
  have hscope : (q₀.openClause p.identifier).scope = .conditions := by
    rw [hi]
    rfl
  have hfree := (List.forall_mem_append.mp hn).1
  have hsettled : c.draft.Settled := Cursor.settled_run hscope hfree (.inl rfl) hpre
  have hreader := Cursor.reader_run hscope hfree hpre
  have hdraft : (pre.foldl Reader.after {}).draft = c.draft := congrArg Reader.draft hreader.symm
  exact ⟨hdraft ▸ hsettled, Cursor.values_run hscope hfree hpre⟩

/-- At the top of a clause an operand reaches the filter with the marker in front of it. -/
theorem emits_operand {pre post : List Node} {word : String} {m : Marker} {x : Operand} (hi : p.identifier = .where_)
    (hm : Marker.ofCondition? word = some m) (hand : m ≠ .and)
    (hn : ∀ n ∈ pre ++ .word word :: (x.nodes ++ post), n.identifier? = none)
    (h : compile dialect (p.fill (pre ++ .word word :: (x.nodes ++ post))) = .ok q) :
    ∃ l, q.Emits dialect (p.fill (pre ++ .word word :: (x.nodes ++ post))) (p.valuesBefore ++ Group.values pre) l ∧
      x.leaf.Heeds dialect.like m l := by
  obtain ⟨hsettled, hvalues⟩ := read_front hi hn h
  let r := pre.foldl Reader.after {}
  have hword : (r.word word).draft.Settled := by
    unfold Reader.word
    split <;> exact hsettled
  refine ⟨x.leaf.turn (r.word word).modifiers.markers, emits hi hn h ?_,
    Leaf.heeds_turn _ (r.mem_markers_word hm hand) _⟩
  rw [Reader.leaves_append, Reader.leaves_word_cons, Reader.leaves_append, Reader.leaves_operand hword]
  exact ⟨Reader.leaves {} pre, _, rfl, hvalues⟩

end Place

namespace ArrayPlace

variable (p : ArrayPlace) {dialect : Dialect} {q : Query} {a : List Node}

/-- The leaf as it is turned by the markers in front of the arrays around the place. -/
def turned (l : Leaf) : Leaf := (p.path.turned l).turn (p.pre.foldl Reader.after {}).modifiers.markers

/-- The values of the filter clauses before the place. -/
def valuesBefore : List Json := p.clause.valuesBefore ++ (Group.values p.pre ++ p.path.valuesBefore)

theorem turned_turn (l : Leaf) (markers : List Marker) : p.turned (l.turn markers) = (p.turned l).turn markers := by
  rw [turned, ArrayPath.turned_turn]
  exact Leaf.turn_comm _ _ _

theorem accepted_of_compile (h : compile dialect (p.fill a) = .ok q) : Group.Accepted (p.path.fill a) := by
  obtain ⟨q₀, q₁, hread⟩ := readClause_of_compile h (p.clause.mem_segments_fill (p.free_nodes a))
  rw [p.isFilter] at hread
  exact Segment.accepted_of_mem (p.free_nodes a) hread (List.mem_append_right _ List.mem_cons_self)

/-- What stands in the array reaches the filter. -/
theorem emits {l : Leaf} {before : List Json} (h : compile dialect (p.fill a) = .ok q)
    (hl : l.StandsAt before (Group.leaves {} a)) :
    q.Emits dialect (p.fill a) (p.valuesBefore ++ before) (p.turned l) := by
  obtain ⟨_, hvalues⟩ := Place.read_front p.isFilter (p.free_nodes a) h
  have hstands := p.path.standsAt (p.accepted_of_compile h) hl
  rw [valuesBefore, List.append_assoc, List.append_assoc]
  refine Place.emits p.isFilter (p.free_nodes a) h ?_
  rw [nodes, Reader.leaves_append, Reader.leaves_array_cons, ← hvalues]
  exact (hstands.turn _).append _ _

/-- In an array an operand reaches the filter with the markers that wait in front of it. -/
theorem emits_operand {pre post : List Node} {word : String} (x : Operand)
    (h : compile dialect (p.fill (pre ++ .word word :: (x.nodes ++ post))) = .ok q) :
    q.Emits dialect (p.fill (pre ++ .word word :: (x.nodes ++ post))) (p.valuesBefore ++ Group.values pre)
      ((p.turned x.leaf).turn ((pre.foldl Draft.after {}).after (.word word)).pendingMarkers) := by
  obtain ⟨markers, member, hreduce⟩ := p.path.accepted (p.accepted_of_compile h)
  obtain ⟨news, hall, _⟩ := reduce_eq_ok hreduce
  rw [← turned_turn]
  exact p.emits h (standsAt_operand x hall)

/-- A lost `IN` is not seen: the tree compiles to the same query, or fails with the same error. -/
theorem compile_inList_of_keyStands {pre post : List Node} {word : String}
    (hm : Marker.ofCondition? word = some .inList) (hkey : Group.KeyStands pre)
    (hpost : ∀ n ∈ post.head?, n.endsWait = true) (dialect : Dialect) :
    compile dialect (p.fill (pre ++ .word word :: post)) = compile dialect (p.fill (pre ++ post)) := by
  refine p.compile_congr (fun q markers outer => ?_) dialect
  rw [Query.applyGroup, Query.applyGroup,
    ArrayPath.reduce_congr (reduce_inList_of_keyStands hm hkey hpost) p.path markers]

end ArrayPlace

/-! ## Every operand -/

/-- **Markers in front of operands.** Every array inside a filter clause has a place. An operand of that array with
`NOT` or `IN` in front reaches the filter at its place. The marker is taken into account if it is `NOT`, or if no key of
the array stands open in front of it. But an `IN` after a key that stands open is lost: the operand is as without it, and
so is the whole compilation. At the top of a filter clause no marker is lost. -/
theorem compile_operand (dialect : Dialect) :
    (∀ (tree : Tree), ∀ s ∈ tree.segments, s.identifier = .where_ → ∀ a ∈ Group.arrays s.nodes,
      ∃ p : ArrayPlace, tree = p.fill a) ∧
    ∀ (word : String) (m : Marker), Marker.ofCondition? word = some m → m ≠ .and →
    ∀ (x : Operand) (pre post : List Node),
      (∀ (p : ArrayPlace) (q : Query), compile dialect (p.fill (pre ++ .word word :: (x.nodes ++ post))) = .ok q →
        ∃ l, q.Emits dialect (p.fill (pre ++ .word word :: (x.nodes ++ post))) (p.valuesBefore ++ Group.values pre) l ∧
          (m = .not ∨ ¬ Group.KeyStands pre → (p.turned x.leaf).Heeds dialect.like m l) ∧
          (m = .inList → Group.KeyStands pre → l = p.turned x.leaf)) ∧
      (m = .inList → Group.KeyStands pre → ∀ p : ArrayPlace,
        compile dialect (p.fill (pre ++ .word word :: (x.nodes ++ post))) =
          compile dialect (p.fill (pre ++ (x.nodes ++ post)))) ∧
      (∀ (p : Place) (q : Query), p.identifier = .where_ →
        (∀ n ∈ pre ++ .word word :: (x.nodes ++ post), n.identifier? = none) →
        compile dialect (p.fill (pre ++ .word word :: (x.nodes ++ post))) = .ok q →
        ∃ l, q.Emits dialect (p.fill (pre ++ .word word :: (x.nodes ++ post))) (p.valuesBefore ++ Group.values pre) l ∧
          x.leaf.Heeds dialect.like m l) := by
  refine ⟨fun tree s hs hi a ha => Tree.exists_arrayPlace hs hi ha, ?_⟩
  intro word m hm hand x pre post
  refine ⟨?_, ?_, ?_⟩
  · intro p q h
    -- The same leaf in both cases: only the markers that wait in front of it differ.
    refine ⟨_, p.emits_operand x h, ?_, ?_⟩
    · intro hwaits
      refine Leaf.heeds_turn _ (Draft.mem_pendingMarkers_after hm hand (hwaits.imp_right fun hkey => ?_)) _
      rwa [← Draft.isSome_key_foldl, Option.not_isSome_iff_eq_none] at hkey
    · rintro rfl hkey
      rw [Draft.pendingMarkers_after_inList hm ((Draft.isSome_key_foldl pre).mpr hkey), Leaf.turn_nil]
  · rintro rfl hkey p
    exact p.compile_inList_of_keyStands hm hkey (x.endsWait_head post) dialect
  · intro p q hi hn h
    exact Place.emits_operand hi hm hand hn h

/-- The filter clause of a tree that has nothing else. -/
def Place.lone : Place := ⟨[], [], "WHERE", [], [], Group.cut_nil⟩

theorem Place.identifier_lone : Place.lone.identifier = .where_ := by decide +kernel

theorem Group.free_nil : ∀ n ∈ ([] ++ [] : List Node), n.identifier? = none := by simp

/-- The one array of a filter clause. -/
def ArrayPlace.lone : ArrayPlace := ⟨.lone, Place.identifier_lone, [], [], Group.free_nil, []⟩

/-- A clause with its value, which leaves its key open. -/
def Group.first : List Node := [.token ⟨.key, .str "a"⟩, .token ⟨.value, .int 1⟩]

/-- An array of one clause. -/
def Operand.second : Operand :=
  .array [.token ⟨.key, .str "b"⟩, .token ⟨.value, .int 5⟩] ⟨[], ⟨"b", none, .int 5⟩⟩ rfl

def Group.marked (word : String) : List Node := Group.first ++ .word word :: (Operand.second.nodes ++ [])

theorem compile_operand_second :
    (∃ q, compile {} (ArrayPlace.lone.fill (Group.marked "IN")) = .ok q ∧
      q.Emits {} (ArrayPlace.lone.fill (Group.marked "IN")) [.int 1] ⟨⟨"b", none, .int 5⟩, .plain⟩) ∧
    compile {} (ArrayPlace.lone.fill (Group.marked "IN")) =
      compile {} (ArrayPlace.lone.fill (Group.first ++ (Operand.second.nodes ++ []))) ∧
    (∃ q l, compile {} (ArrayPlace.lone.fill (Group.marked "NOT")) = .ok q ∧
      q.Emits {} (ArrayPlace.lone.fill (Group.marked "NOT")) [.int 1] l ∧ Operand.second.leaf.Heeds .regex .not l) ∧
    ∃ q l, compile {} (Place.lone.fill (Group.marked "IN")) = .ok q ∧
      q.Emits {} (Place.lone.fill (Group.marked "IN")) [.int 1] l ∧ Operand.second.leaf.Heeds .regex .inList l := by
  have hstands : Group.KeyStands Group.first := (Draft.isSome_key_foldl _).mp rfl
  have hin := (compile_operand {}).2 "IN" .inList Marker.ofCondition?_in (by decide) .second Group.first []
  have hnot := (compile_operand {}).2 "NOT" .not Marker.ofCondition?_not (by decide) .second Group.first []
  refine ⟨?_, hin.2.1 rfl hstands _, ?_, ?_⟩
  · have hok : (compile {} (ArrayPlace.lone.fill (Group.marked "IN"))).isOk = true := by decide +kernel
    obtain ⟨q, hq⟩ := exists_eq_ok hok
    obtain ⟨l, hemits, _, hlost⟩ := hin.1 .lone q hq
    obtain rfl := hlost rfl hstands
    exact ⟨q, hq, hemits⟩
  · have hok : (compile {} (ArrayPlace.lone.fill (Group.marked "NOT"))).isOk = true := by decide +kernel
    obtain ⟨q, hq⟩ := exists_eq_ok hok
    obtain ⟨l, hemits, hheeds, _⟩ := hnot.1 .lone q hq
    exact ⟨q, l, hq, hemits, hheeds (.inl rfl)⟩
  · have hok : (compile {} (Place.lone.fill (Group.marked "IN"))).isOk = true := by decide +kernel
    obtain ⟨q, hq⟩ := exists_eq_ok hok
    obtain ⟨l, hemits, hheeds⟩ := hin.2.2 .lone q Place.identifier_lone (by decide) hq
    exact ⟨q, l, hq, hemits, hheeds⟩

end DocQuery
