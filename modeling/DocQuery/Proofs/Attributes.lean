import DocQuery.Proofs.Grouping.Leaves

/-!
# Conditions on attributes

A condition is *proper* if its key is an attribute, and not the key of a connective, and if no object in its value
repeats a key. The key, the operator and the value of a condition are payloads of tokens (`Tree.drawn_parts`), so the
conditions of a tree are proper if the keys, the values and the counted attributes in it are (`Tree.proper_parts`). The
fragment of a proper condition has unique keys too (`Leaf.Proper.hasUniqueKeys_fragment`).
-/

namespace DocQuery

/-! ## Fragments -/

theorem Json.hasUniqueKeys_asArray {value : Json} (h : value.hasUniqueKeys = true) :
    value.asArray.hasUniqueKeys = true := by
  cases value with
  | arr items => exact h
  | _ => simp only [asArray, hasUniqueKeys, itemsHaveUniqueKeys, Bool.and_true] at h ⊢ <;> exact h

theorem Like.hasUniqueKeys_operand (style : LikeStyle) (regex : String) :
    (Like.operand style regex).hasUniqueKeys = true := by
  cases style <;> simp [operand, Json.hasUniqueKeys, Json.fieldsHaveUniqueKeys, Fields.keys]

theorem Condition.hasUniqueKeys_comparison {style : LikeStyle} {c : Condition} {j : Json}
    (hv : c.value.hasUniqueKeys = true) (h : c.comparison style = .ok j) : j.hasUniqueKeys = true := by
  unfold comparison at h
  split at h
  · cases h
    exact hv
  · split at h
    · rename_i op hlike
      simp only [Operator.operand, Option.any_some, hlike, ↓reduceIte] at h
      split at h
      · cases h
        exact Like.hasUniqueKeys_operand style _
      · cases h
    · cases h
      exact Json.hasUniqueKeys_single _ hv

/-- The key is an attribute, and the value repeats no key. -/
structure Leaf.Proper (l : Leaf) : Prop where
  key : Combinator.ofOperator? l.condition.key = none
  unique : l.condition.value.hasUniqueKeys = true

theorem Leaf.Proper.hasUniqueKeys_fragment {style : LikeStyle} {l : Leaf} {fragment : Json} (h : l.Proper)
    (hf : l.fragment style = .ok fragment) : fragment.hasUniqueKeys = true := by
  unfold Leaf.fragment Condition.fragment at hf
  split at hf
  · exact Condition.hasUniqueKeys_comparison h.unique hf
  · split at hf
    · cases hf
      exact Json.hasUniqueKeys_single _ h.unique
    · obtain ⟨j, hj, rfl⟩ := map_eq_ok.mp hf
      exact Json.hasUniqueKeys_single _ (Condition.hasUniqueKeys_comparison h.unique hj)
  · cases hf
    exact Json.hasUniqueKeys_single _ (Json.hasUniqueKeys_asArray h.unique)
  · cases hf
    exact Json.hasUniqueKeys_single _ (Json.hasUniqueKeys_asArray h.unique)

/-! ## Where the parts of a condition stand -/

/-- The key, the operator and the value are payloads of some of the tokens. -/
structure Leaf.DrawnFrom (ts : List Token) (l : Leaf) : Prop where
  key : ⟨.key, .str l.condition.key⟩ ∈ ts
  operator : ∀ operator, l.condition.operator = some operator → ⟨.operator, .str operator⟩ ∈ ts
  value : ⟨.value, l.condition.value⟩ ∈ ts

/-- The key and the operator that have been read are payloads of some of the tokens. -/
structure Draft.DrawnFrom (ts : List Token) (d : Draft) : Prop where
  key : ∀ key, d.key = some key → ⟨.key, .str key⟩ ∈ ts
  operator : ∀ operator, d.operator = some operator → ⟨.operator, .str operator⟩ ∈ ts

section Drawn

variable {ts : List Token}

theorem Draft.DrawnFrom.empty (markers : List Marker) : (Draft.withMarkers markers).DrawnFrom ts :=
  ⟨nofun, nofun⟩

theorem Draft.DrawnFrom.setKey {d : Draft} {key : String} (h : d.DrawnFrom ts) (hkey : ⟨.key, .str key⟩ ∈ ts) :
    (d.setKey key).DrawnFrom ts := by
  unfold Draft.setKey
  split
  · exact ⟨fun k hk => Option.some.inj hk ▸ hkey, h.operator⟩
  · exact ⟨fun k hk => Option.some.inj hk ▸ hkey, nofun⟩

theorem Draft.DrawnFrom.after {d : Draft} {node : Node} (h : d.DrawnFrom ts) (ht : ∀ t ∈ node.tokens, t ∈ ts) :
    (d.after node).DrawnFrom ts := by
  unfold Draft.after
  split
  · exact .empty []
  · rename_i key
    exact h.setKey (ht _ (by simp [Node.tokens]))
  · rename_i operator
    refine ⟨h.key, fun op hop => ?_⟩
    cases hop
    exact ht _ (by simp [Node.tokens])
  · exact ⟨h.key, h.operator⟩
  · split
    · exact .empty [.not]
    · exact ⟨h.key, h.operator⟩
    · exact h
  · exact h

/-- A value completes a leaf of what has been read. -/
theorem Draft.DrawnFrom.leaf? {d : Draft} {t : Token} {modifiers : Modifiers} {l : Leaf} (h : d.DrawnFrom ts)
    (ht : t ∈ ts) (hl : d.leaf? modifiers t = some l) : l.DrawnFrom ts := by
  unfold Draft.leaf? at hl
  split at hl
  · obtain ⟨key, hkey, rfl⟩ := Option.map_eq_some_iff.mp hl
    exact ⟨h.key key hkey, h.operator, ht⟩
  · cases hl

/-- Markers touch none of the three. -/
theorem Leaf.DrawnFrom.turn {l : Leaf} (h : l.DrawnFrom ts) (markers : List Marker) : (l.turn markers).DrawnFrom ts :=
  ⟨h.key, h.operator, h.value⟩

mutual

theorem Node.drawn_demands (join : Combinator) : ∀ {node : Node} {d : Draft}, d.DrawnFrom ts →
    (∀ t ∈ node.tokens, t ∈ ts) → ∀ l ∈ Demand.leavesAll (node.demands join d), l.DrawnFrom ts
  | .token t, d, hd, ht, l, hl => by
    rw [Node.demands] at hl
    cases hleaf : d.leaf? ⟨d.markers⟩ t with
    | none => simp [hleaf, Demand.leavesAll] at hl
    | some l' =>
      simp only [hleaf, Option.map_some, Option.toList_some, Demand.leavesAll, Demand.leaves, List.append_nil,
        List.mem_singleton] at hl
      rw [hl]
      exact hd.leaf? (ht t (by simp [Node.tokens])) hleaf
  | .group nodes, d, _, ht, l, hl => by
    simp only [Node.demands, Demand.leavesAll_singleton, Demand.leaves_turn, Demand.leaves, List.mem_map] at hl
    obtain ⟨l', hl', rfl⟩ := hl
    exact (Group.drawn_demands _ (.empty []) ht l' hl').turn _

theorem Group.drawn_demands (join : Combinator) : ∀ {nodes : List Node} {d : Draft}, d.DrawnFrom ts →
    (∀ t ∈ Group.tokens nodes, t ∈ ts) → ∀ l ∈ Demand.leavesAll (Group.demands join d nodes), l.DrawnFrom ts
  | [], _, _, _, l, hl => by simp [Group.demands, Demand.leavesAll] at hl
  | node :: rest, d, hd, ht, l, hl => by
    rw [Group.tokens, List.forall_mem_append] at ht
    rw [Group.demands, Demand.leavesAll_append, List.mem_append] at hl
    rcases hl with hl | hl
    · exact Node.drawn_demands join hd ht.1 l hl
    · exact Group.drawn_demands join (hd.after ht.1) ht.2 l hl

end

/-! ## Trees -/

/-- The leaves of a part in the order of the document. -/
def Part.leaves (p : Part) : List Leaf := p.demand.leaves

/-- The leaves of an array are those of what it reduces to. -/
theorem Part.leaves_array {markers : List Marker} {nodes : List Node} {member : Option Expr} (join : Combinator)
    (h : Grouping.reduce markers nodes = .ok member) :
    (Part.array join markers nodes).leaves = Expr.leavesAll member.toList := by
  rw [(Grouping.keeps_of_reduce join h).leaves, Demand.leavesAll_singleton]
  rfl

theorem Reader.drawn_after {r : Reader} {node : Node} (h : r.draft.DrawnFrom ts) (ht : ∀ t ∈ node.tokens, t ∈ ts) :
    (r.after node).draft.DrawnFrom ts := by
  unfold Reader.after
  split
  · exact .empty []
  · rename_i key
    exact h.setKey (ht _ (by simp [Node.tokens]))
  · rename_i operator
    refine ⟨h.key, fun op hop => ?_⟩
    cases hop
    exact ht _ (by simp [Node.tokens])
  · exact ⟨h.key, h.operator⟩
  · unfold Reader.word
    split <;> exact h
  · exact h

theorem Reader.drawn_parts {nodes : List Node} {r : Reader} (h : r.draft.DrawnFrom ts)
    (ht : ∀ t ∈ Group.tokens nodes, t ∈ ts) : ∀ p ∈ r.parts nodes, ∀ l ∈ p.leaves, l.DrawnFrom ts := by
  induction nodes generalizing r with
  | nil => simp [Reader.parts]
  | cons node rest ih =>
    rw [Group.tokens, List.forall_mem_append] at ht
    rw [Reader.parts, List.forall_mem_append]
    refine ⟨fun p hp l hl => ?_, ih (drawn_after h ht.1) ht.2⟩
    rw [Option.mem_toList] at hp
    cases node with
    | token t =>
      obtain ⟨l', hl', rfl⟩ := Option.map_eq_some_iff.mp hp
      simp only [Part.leaves, Part.demand, Demand.leaves, List.mem_singleton] at hl
      rw [hl]
      exact h.leaf? (ht.1 t (by simp [Node.tokens])) hl'
    | group nodes =>
      cases hp
      refine Node.drawn_demands (r.combinator.getD .or) (.empty r.modifiers.markers) ht.1 l ?_
      simpa [Demand.leavesAll, Node.demands, Draft.pendingMarkers, Draft.isPending, Draft.withMarkers, Part.leaves,
        Part.demand, Group.demand] using hl

end Drawn

/-- Every leaf of a tree is drawn from the tokens of a filter clause, or says that a counted attribute exists. -/
theorem Tree.drawn_parts {tree : Tree} {count : CountStyle} {p : Part} (hp : p ∈ tree.parts count) {l : Leaf}
    (hl : l ∈ p.leaves) :
    (∃ s ∈ tree.segments, s.identifier = .where_ ∧ l.DrawnFrom (Group.tokens s.nodes)) ∨
      ∃ s ∈ tree.segments, s.identifier = .count ∧ ∃ node ∈ s.nodes, ∃ attr ∈ node.counted, l = .existence attr := by
  obtain ⟨s, hs, hp⟩ := List.mem_flatMap.mp hp
  by_cases hi : s.identifier = .where_
  · rw [Segment.parts_where hi] at hp
    exact .inl ⟨s, hs, hi, Reader.drawn_parts (.empty []) (fun t ht => ht) p hp l hl⟩
  · rw [Segment.parts_of_ne_where hi] at hp
    split at hp
    · rename_i hcount
      cases count with
      | pipeline => cases hp
      | existence =>
        obtain ⟨attr, hattr, rfl⟩ := List.mem_map.mp hp
        obtain ⟨node, hnode, hattr⟩ := List.mem_flatMap.mp hattr
        simp only [Part.leaves, Part.demand, Demand.leaves, List.mem_singleton] at hl
        exact .inr ⟨s, hs, hcount, node, hnode, attr, hattr, hl⟩
    · cases hp

/-- No key of a filter clause and no counted attribute is the key of a connective. -/
structure Tree.AvoidsConnectives (tree : Tree) : Prop where
  keys : ∀ s ∈ tree.segments, s.identifier = .where_ → ∀ t ∈ Group.tokens s.nodes, t.kind = .key →
    t.value ≠ .str "$and" ∧ t.value ≠ .str "$or"
  counted : ∀ s ∈ tree.segments, s.identifier = .count → ∀ node ∈ s.nodes, ∀ attr ∈ node.counted,
    attr ≠ "$and" ∧ attr ≠ "$or"

theorem Combinator.ofOperator?_eq_none {key : String} (h : key ≠ "$and" ∧ key ≠ "$or") : ofOperator? key = none := by
  simp [ofOperator?, h.1, h.2]

theorem Group.mem_tokens_of_mem_cut (t : Token) (nodes : List Node) :
    (t ∈ Group.tokens (Group.cut nodes).1 → t ∈ Group.tokens nodes) ∧
      ∀ s ∈ (Group.cut nodes).2, t ∈ Group.tokens s.nodes → t ∈ Group.tokens nodes := by
  induction nodes with
  | nil => simp [Group.cut]
  | cons node rest ih =>
    obtain ⟨hhead, htail⟩ := ih
    have hmem : t ∈ Group.tokens rest → t ∈ Group.tokens (node :: rest) := fun h => by
      rw [Group.tokens]
      exact List.mem_append_right _ h
    cases hn : node.identifier? with
    | none =>
      simp only [Group.cut, hn]
      refine ⟨fun h => ?_, fun s hs h => hmem (htail s hs h)⟩
      rw [Group.tokens] at h ⊢
      rcases List.mem_append.mp h with h | h
      · exact List.mem_append_left _ h
      · exact List.mem_append_right _ (hhead h)
    | some i =>
      simp only [Group.cut, hn, List.forall_mem_cons]
      exact ⟨by simp [Group.tokens], fun h => hmem (hhead h), fun s hs h => hmem (htail s hs h)⟩

/-- The tokens of a clause are tokens of its tree. -/
theorem Tree.mem_tokens_of_mem_segments {tree : Tree} {s : Segment} (hs : s ∈ tree.segments) {t : Token}
    (ht : t ∈ Group.tokens s.nodes) : ∃ g ∈ tree.groups, t ∈ Group.tokens g := by
  obtain ⟨g, hg, hs⟩ := List.mem_flatMap.mp hs
  exact ⟨g, hg, (Group.mem_tokens_of_mem_cut t g).2 s hs ht⟩

/-- The conditions of a tree are on attributes. -/
theorem Tree.attribute_parts {tree : Tree} (hc : tree.AvoidsConnectives) {count : CountStyle} {p : Part}
    (hp : p ∈ tree.parts count) {l : Leaf} (hl : l ∈ p.leaves) : Combinator.ofOperator? l.condition.key = none := by
  rcases Tree.drawn_parts hp hl with ⟨s, hs, hi, hdrawn⟩ | ⟨s, hs, hi, node, hnode, attr, hattr, rfl⟩
  · exact Combinator.ofOperator?_eq_none (by simpa using hc.keys s hs hi _ hdrawn.key rfl)
  · exact Combinator.ofOperator?_eq_none (hc.counted s hs hi node hnode attr hattr)

/-- The conditions of a tree are proper. -/
theorem Tree.proper_parts {tree : Tree} (hc : tree.AvoidsConnectives) (hu : tree.HasUniqueKeys) (count : CountStyle) :
    ∀ p ∈ tree.parts count, ∀ l ∈ p.leaves, l.Proper := by
  intro p hp l hl
  refine ⟨Tree.attribute_parts hc hp hl, ?_⟩
  rcases Tree.drawn_parts hp hl with ⟨s, hs, _, hdrawn⟩ | ⟨s, _, _, node, _, attr, _, rfl⟩
  · obtain ⟨g, hg, ht⟩ := Tree.mem_tokens_of_mem_segments hs hdrawn.value
    exact hu g hg _ ht
  · rfl

end DocQuery
