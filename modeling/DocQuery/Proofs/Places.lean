import DocQuery.Proofs.Clauses

/-!
# Clauses and the groups around them

A clause reaches from its identifier to the next one, and only identifiers tell clauses apart: a group can be divided
in front of any of its identifiers, and the tree compiles as before (`compile_divide`). Nothing that waits in a clause
goes past the identifier after it, and the end of a group does what an identifier does.

`Place` is a tree with a place for the nodes of one clause. Compiling the tree is compiling what comes before, reading
that clause, and going on with what comes after it (`Place.compile_fill`).
-/

namespace DocQuery

/-! ## Where the clauses of a group stand -/

namespace Group

theorem cut_nil : (cut []).1 = [] := rfl

theorem cut_append_of_free {xs : List Node} (h : ∀ n ∈ xs, n.identifier? = none) (ys : List Node) :
    cut (xs ++ ys) = (xs ++ (cut ys).1, (cut ys).2) := by
  induction xs with
  | nil => rfl
  | cons x xs ih =>
    rw [List.forall_mem_cons] at h
    simp only [List.cons_append, cut, h.1, ih h.2]

theorem cut_append_identifier (xs ys : List Node) (name : String) :
    cut (xs ++ .token ⟨.identifier, .str name⟩ :: ys) =
      ((cut xs).1, (cut xs).2 ++ ⟨.ofName name, (cut ys).1⟩ :: (cut ys).2) := by
  induction xs with
  | nil => rfl
  | cons x xs ih =>
    cases hx : x.identifier? with
    | none => simp only [List.cons_append, cut, hx, ih]
    | some i => simp only [List.cons_append, cut, hx, ih]

/-- The first clause ends where an identifier stands. -/
theorem exists_eq_cut_append (nodes : List Node) : ∃ after, nodes = (cut nodes).1 ++ after ∧ (cut after).1 = [] := by
  induction nodes with
  | nil => exact ⟨[], rfl, rfl⟩
  | cons node rest ih =>
    cases hn : node.identifier? with
    | none =>
      obtain ⟨after, hrest, hafter⟩ := ih
      refine ⟨after, ?_, hafter⟩
      simp only [cut, hn, List.cons_append, ← hrest]
    | some i => exact ⟨node :: rest, by simp [cut, hn], by simp [cut, hn]⟩

/-- Where a clause stands in its group. -/
theorem exists_eq_of_mem_cut {nodes : List Node} {s : Segment} (h : s ∈ (cut nodes).2) :
    ∃ before name after, nodes = before ++ .token ⟨.identifier, .str name⟩ :: (s.nodes ++ after) ∧
      Identifier.ofName name = s.identifier ∧ (cut after).1 = [] := by
  induction nodes with
  | nil => cases h
  | cons node rest ih =>
    cases hn : node.identifier? with
    | none =>
      simp only [cut, hn] at h
      obtain ⟨before, name, after, rfl, hname, hafter⟩ := ih h
      exact ⟨node :: before, name, after, rfl, hname, hafter⟩
    | some i =>
      simp only [cut, hn] at h
      rcases List.mem_cons.mp h with rfl | h
      · obtain ⟨name, rfl, hname⟩ := Node.eq_of_identifier? hn
        obtain ⟨after, hrest, hafter⟩ := exists_eq_cut_append rest
        exact ⟨[], name, after, by rw [← hrest]; rfl, hname, hafter⟩
      · obtain ⟨before, name, after, rfl, hname, hafter⟩ := ih h
        exact ⟨node :: before, name, after, rfl, hname, hafter⟩

end Group

/-! ## Boundaries of groups -/

/-- In front of an identifier a walk may stop and start again. -/
theorem Query.walk_append_identifier (q : Query) (xs ys : List Node) (name : String) :
    q.walk (xs ++ .token ⟨.identifier, .str name⟩ :: ys) =
      q.walk xs >>= fun q => q.walk (.token ⟨.identifier, .str name⟩ :: ys) := by
  have hstart : ∀ q : Query, q.walk (.token ⟨.identifier, .str name⟩ :: ys) =
      (⟨.ofName name, (Group.cut ys).1⟩ :: (Group.cut ys).2 : List Segment).foldlM Query.readClause q := fun q => by
    rw [walk_eq]
    rfl
  simp only [hstart]
  rw [walk_eq, walk_eq, Group.cut_append_identifier, bind_assoc]
  simp only [List.foldlM_append]

/-- **Only identifiers divide a tree.** A group and its two parts in front of one of its identifiers compile to the
same query, or fail with the same error. -/
theorem compile_divide (dialect : Dialect) (before after : List Group) (g rest : List Node) (name : String) :
    compile dialect ⟨before ++ (g ++ .token ⟨.identifier, .str name⟩ :: rest) :: after⟩ =
      compile dialect ⟨before ++ g :: (.token ⟨.identifier, .str name⟩ :: rest) :: after⟩ := by
  unfold compile
  rw [List.foldlM_append, List.foldlM_append]
  refine bind_congr_ok fun q _ => ?_
  -- The walk of the whole group is that of its two parts.
  rw [List.foldlM_cons, List.foldlM_cons, Query.walk_append_identifier, bind_assoc]
  rfl

/-! ## Places -/

/-- A place for the nodes of a clause: the tree around them. -/
structure Place where
  groups : List Group
  before : List Node
  name : String
  after : List Node
  others : List Group
  /-- What follows in the group is another clause. -/
  closed : (Group.cut after).1 = []

namespace Place

variable (p : Place) {nodes nodes' : List Node}

def identifier : Identifier := .ofName p.name

/-- The group with the clause. -/
def group (nodes : List Node) : Group := p.before ++ .token ⟨.identifier, .str p.name⟩ :: (nodes ++ p.after)

/-- The tree with the clause. -/
def fill (nodes : List Node) : Tree := ⟨p.groups ++ p.group nodes :: p.others⟩

theorem cut_group (hn : ∀ n ∈ nodes, n.identifier? = none) :
    Group.cut (p.group nodes) =
      ((Group.cut p.before).1, (Group.cut p.before).2 ++ ⟨p.identifier, nodes⟩ :: (Group.cut p.after).2) := by
  rw [group, Group.cut_append_identifier, Group.cut_append_of_free hn, p.closed, List.append_nil]
  rfl

/-- The clauses before the place, the clause there, and the clauses after it. -/
theorem segments_fill (hn : ∀ n ∈ nodes, n.identifier? = none) :
    (p.fill nodes).segments =
      (Tree.segments ⟨p.groups⟩ ++ (Group.cut p.before).2) ++
        ⟨p.identifier, nodes⟩ :: ((Group.cut p.after).2 ++ Tree.segments ⟨p.others⟩) := by
  simp [Tree.segments, fill, p.cut_group hn]

theorem mem_segments_fill (hn : ∀ n ∈ nodes, n.identifier? = none) :
    ⟨p.identifier, nodes⟩ ∈ (p.fill nodes).segments := by
  rw [p.segments_fill hn]
  exact List.mem_append_right _ List.mem_cons_self

/-- The query in front of the clause. -/
def lead (dialect : Dialect) : Except BuildError Query := do
  let q ← p.groups.foldlM Query.walk (.empty dialect)
  let q ← ({ query := q } : Cursor).finish (Group.cut p.before).1
  (Group.cut p.before).2.foldlM Query.readClause q

/-- What comes after the clause. -/
def rest (q : Query) : Except BuildError Query := do
  let q ← (Group.cut p.after).2.foldlM Query.readClause q
  p.others.foldlM Query.walk q

theorem compile_fill (hn : ∀ n ∈ nodes, n.identifier? = none) (dialect : Dialect) :
    compile dialect (p.fill nodes) = p.lead dialect >>= fun q => q.readClause ⟨p.identifier, nodes⟩ >>= p.rest := by
  simp only [compile, fill, lead, List.foldlM_append, List.foldlM_cons, walk_eq, p.cut_group hn, bind_assoc]
  rfl

end Place

theorem Tree.exists_place_of_mem_segments {tree : Tree} {s : Segment} (h : s ∈ tree.segments) :
    ∃ p : Place, p.identifier = s.identifier ∧ tree = p.fill s.nodes := by
  obtain ⟨g, hg, hs⟩ := List.mem_flatMap.mp h
  obtain ⟨before, name, after, rfl, hname, hafter⟩ := Group.exists_eq_of_mem_cut hs
  obtain ⟨groups, others, hgroups⟩ := List.append_of_mem hg
  exact ⟨⟨groups, before, name, after, others, hafter⟩, hname, congrArg Tree.mk hgroups⟩

end DocQuery
