import DocQuery.Proofs.LostKeys.Clauses
import DocQuery.Proofs.Places
import Mathlib.Logic.Relation

/-!
# Keys without a value in trees

A loss in one clause of a tree is not seen by the compiler: the tree compiles as the tree without what is lost
(`Tree.Drops.compile_eq`). So every tree that compiles, compiles as a tree in which each key is completed by a value
(`Tree.exists_keysCompleted`), and it is that tree already if and only if nothing is lost in it
(`Tree.keysCompleted_iff`).
-/

namespace DocQuery

/-! ## Losses in trees -/

/-- One loss in a tree: a loss in one of its clauses. -/
inductive Tree.Drops : Tree → Tree → Prop
  | clause (p : Place) {nodes nodes' : List Node} (hn : ∀ n ∈ nodes, n.identifier? = none)
      (h : Segment.Drops p.identifier nodes nodes') : Drops (p.fill nodes) (p.fill nodes')

def Tree.keyCount (tree : Tree) : Nat := Group.keyCount tree.groups.flatten

/-- A loss adds no identifier. -/
theorem Segment.Drops.free {i : Identifier} {nodes nodes' : List Node} (h : Segment.Drops i nodes nodes')
    (hn : ∀ n ∈ nodes, n.identifier? = none) : ∀ n ∈ nodes', n.identifier? = none := by
  cases h with
  | @key pre mid post key _ _ =>
    simp only [List.forall_mem_append, List.forall_mem_cons] at hn ⊢
    exact ⟨hn.1, fun n hmem => hn.2.2.1 n ((List.mem_filter.mp hmem).1), hn.2.2.2⟩
  | array _ =>
    simp only [List.forall_mem_append, List.forall_mem_cons] at hn ⊢
    exact ⟨hn.1, rfl, hn.2.2⟩
  | pair _ =>
    simp only [List.forall_mem_append, List.forall_mem_cons] at hn ⊢
    exact ⟨hn.1, hn.2.2⟩

/-- **A loss in a tree is not seen**: it compiles to the same query, or fails with the same error. -/
theorem Tree.Drops.compile_eq {tree tree' : Tree} (h : tree.Drops tree') (dialect : Dialect) :
    compile dialect tree = compile dialect tree' := by
  cases h with
  | clause p hn h =>
    rw [p.compile_fill hn, p.compile_fill (h.free hn)]
    simp only [h.readClause_eq hn]

theorem Tree.Drops.keyCount_lt {tree tree' : Tree} (h : tree.Drops tree') : tree'.keyCount < tree.keyCount := by
  cases h with
  | clause p _ h =>
    have hlt := h.keyCount_lt
    simp only [Tree.keyCount, Place.fill, Place.group, List.flatten_append, List.flatten_cons, Group.keyCount_append,
      Group.keyCount_token_cons]
    omega

/-- In every clause that takes keys, and in every array in it, each key is completed by a value. -/
def Tree.KeysCompleted (tree : Tree) : Prop :=
  ∀ s ∈ tree.segments, s.identifier.takesKeys = true → ∀ a ∈ s.nodes :: Group.arrays s.nodes, Group.Completed a

namespace Tree

variable {dialect : Dialect} {tree : Tree} {q : Query}

/-- In a tree that compiles, the keys without a value are those that are lost. -/
theorem keysCompleted_iff (h : compile dialect tree = .ok q) : tree.KeysCompleted ↔ ¬ ∃ tree', tree.Drops tree' := by
  rw [← not_iff_not, not_not]
  constructor
  · intro hnot
    simp only [KeysCompleted, not_forall] at hnot
    obtain ⟨s, hs, hkeys, a, ha, hnot⟩ := hnot
    obtain ⟨q₁, q₂, hread⟩ := readClause_of_compile h hs
    have hn := Tree.identifier?_of_mem_segments hs
    obtain ⟨nodes', hdrops⟩ := (Segment.exists_drops_iff hn hread).mpr ⟨hkeys, a, ha, hnot⟩
    obtain ⟨p, hp, rfl⟩ := exists_place_of_mem_segments hs
    exact ⟨_, .clause p hn (hp ▸ hdrops)⟩
  · rintro ⟨tree', hdrops⟩ hall
    cases hdrops with
    | clause p hn hdrops =>
      have hs := p.mem_segments_fill hn
      obtain ⟨q₁, q₂, hread⟩ := readClause_of_compile h hs
      obtain ⟨hkeys, a, ha, hnot⟩ := (Segment.exists_drops_iff hn hread).mp ⟨_, hdrops⟩
      exact hnot (hall _ hs hkeys a ha)

/-- **Every tree that compiles, compiles as a tree with all keys completed**: the one without its losses. -/
theorem exists_keysCompleted (h : compile dialect tree = .ok q) :
    ∃ tree', Relation.ReflTransGen Drops tree tree' ∧ tree'.KeysCompleted ∧ compile dialect tree' = .ok q := by
  induction hcount : tree.keyCount using Nat.strong_induction_on generalizing tree with
  | _ n ih =>
    by_cases hdrops : ∃ tree', tree.Drops tree'
    · obtain ⟨tree₁, hdrops⟩ := hdrops
      obtain ⟨tree', hsteps, hkeys, hcompile⟩ :=
        ih tree₁.keyCount (hcount ▸ hdrops.keyCount_lt) (hdrops.compile_eq dialect ▸ h) rfl
      exact ⟨tree', .head hdrops hsteps, hkeys, hcompile⟩
    · exact ⟨tree, .refl, (keysCompleted_iff h).mpr hdrops, h⟩

end Tree

/-! ## Reported keys -/

namespace Place

variable (p : Place) {pre : List Node} {dialect : Dialect} {q : Query}

/-- The place without what comes after it. -/
def cutOff : Place := { p with after := [], others := [], closed := rfl }

theorem free_key_last (hn : ∀ n ∈ pre, n.identifier? = none) (key : String) :
    ∀ n ∈ pre ++ [Node.token ⟨.key, .str key⟩], n.identifier? = none := by
  rw [List.forall_mem_append]
  exact ⟨hn, by simp [Node.identifier?]⟩

theorem not_compile_of_key_last (hi : p.identifier.collectsPairs = true) (hn : ∀ n ∈ pre, n.identifier? = none)
    (key : String) : compile dialect (p.fill (pre ++ [.token ⟨.key, .str key⟩])) ≠ .ok q := by
  intro h
  obtain ⟨q₀, q₁, hread⟩ := readClause_of_compile h (p.mem_segments_fill (free_key_last hn key))
  rw [Query.readClause_of_key_last hi hn, bind_eq_ok] at hread
  obtain ⟨_, _, hread⟩ := hread
  cases hread

/-- A key at the end of a clause of pairs is reported, if nothing in front of it is. -/
theorem compile_of_key_last (hi : p.identifier.collectsPairs = true) (hn : ∀ n ∈ pre, n.identifier? = none)
    (key : String) (h : compile dialect (p.cutOff.fill pre) = .ok q) :
    compile dialect (p.fill (pre ++ [.token ⟨.key, .str key⟩])) = .error (.malformed (.keyWithoutValue key)) := by
  rw [p.cutOff.compile_fill hn, bind_eq_ok] at h
  obtain ⟨q₁, hlead, h⟩ := h
  obtain ⟨q₂, hread, _⟩ := bind_eq_ok.mp h
  obtain ⟨c, hrun, _⟩ := bind_eq_ok.mp hread
  have hlead' : p.lead dialect = .ok q₁ := hlead
  have hrun' : (q₁.openClause p.identifier).run pre = .ok c := hrun
  rw [p.compile_fill (free_key_last hn key), hlead']
  show q₁.readClause _ >>= p.rest = _
  rw [Query.readClause_of_key_last hi hn, hrun']
  rfl

end Place

/-- **A key without a value is lost or reported.** What is lost is not seen: the tree compiles, or fails, as it does
without it. In a tree that compiles, the keys without a value are those that are lost, and the query is that of the tree
in which all keys are completed. Only a key at the end of a clause of pairs is reported. -/
theorem Tree.keys_lost_or_reported (dialect : Dialect) (tree : Tree) :
    (∀ tree', tree.Drops tree' → compile dialect tree = compile dialect tree') ∧
    (∀ q, compile dialect tree = .ok q →
      (tree.KeysCompleted ↔ ¬ ∃ tree', tree.Drops tree') ∧
      ∃ tree', Relation.ReflTransGen Tree.Drops tree tree' ∧ tree'.KeysCompleted ∧ compile dialect tree' = .ok q) ∧
    ∀ (p : Place) (pre : List Node) (key : String), tree = p.fill (pre ++ [.token ⟨.key, .str key⟩]) →
      p.identifier.collectsPairs = true → (∀ n ∈ pre, n.identifier? = none) →
      (∀ q, compile dialect tree ≠ .ok q) ∧
      ∀ q, compile dialect (p.cutOff.fill pre) = .ok q →
        compile dialect tree = .error (.malformed (.keyWithoutValue key)) := by
  refine ⟨?_, ?_, ?_⟩
  · intro tree' h
    exact h.compile_eq dialect
  · intro q h
    exact ⟨keysCompleted_iff h, exists_keysCompleted h⟩
  · rintro p pre key rfl hi hn
    refine ⟨fun q => p.not_compile_of_key_last hi hn key, ?_⟩
    intro q h
    exact p.compile_of_key_last hi hn key h

/-- The filter clause of a deletion. -/
def Place.filterOfDeletion : Place where
  groups := [[.token ⟨.identifier, .str "DELETE"⟩]]
  before := []
  name := "WHERE"
  after := []
  others := []
  closed := rfl

/-- The only clause of an update. -/
def Place.update : Place where
  groups := []
  before := []
  name := "UPDATE"
  after := []
  others := []
  closed := rfl

/-- A deletion by a key without a value deletes everything, and an update that ends in such a key is refused. -/
theorem Tree.keys_lost_or_reported_deletion :
    (∃ q, compile {} (Place.filterOfDeletion.fill [.token ⟨.key, .str "id"⟩]) = .ok q ∧ q.kind = .remove ∧
      q.filter = []) ∧
    compile {} (Place.filterOfDeletion.fill [.token ⟨.key, .str "id"⟩]) = compile {} (Place.filterOfDeletion.fill []) ∧
    ¬ (Place.filterOfDeletion.fill [.token ⟨.key, .str "id"⟩]).KeysCompleted ∧
    compile {} (Place.update.fill ([.token ⟨.key, .str "a"⟩, .token ⟨.value, .int 1⟩] ++ [.token ⟨.key, .str "id"⟩])) =
      .error (.malformed (.keyWithoutValue "id")) := by
  have hwhere : Place.filterOfDeletion.identifier = .where_ := by decide +kernel
  have hupdate : Place.update.identifier = .update := by decide +kernel
  have hdeletion : (compile {} (Place.filterOfDeletion.fill [.token ⟨.key, .str "id"⟩])).toOption.map
      (fun q => (q.kind, q.filter)) = some (.remove, []) := by decide +kernel
  obtain ⟨q₁, hq₁⟩ : ∃ q, compile {} (Place.filterOfDeletion.fill [.token ⟨.key, .str "id"⟩]) = .ok q :=
    exists_eq_ok (by decide +kernel)
  obtain ⟨hkind, hfilter⟩ : q₁.kind = .remove ∧ q₁.filter = [] := by simpa [hq₁, Except.toOption] using hdeletion
  have hok : (compile {} (Place.update.cutOff.fill
      [.token ⟨.key, .str "a"⟩, .token ⟨.value, .int 1⟩])).isOk = true := by decide +kernel
  obtain ⟨q₂, hq₂⟩ := exists_eq_ok hok
  have hdrops : (Place.filterOfDeletion.fill [.token ⟨.key, .str "id"⟩]).Drops (Place.filterOfDeletion.fill []) := by
    refine .clause _ (by decide) ?_
    rw [hwhere]
    exact @Segment.Drops.key [] [] [] "id" (by simp) (by simp)
  obtain ⟨hunseen, hlost, _⟩ := Tree.keys_lost_or_reported {} (Place.filterOfDeletion.fill [.token ⟨.key, .str "id"⟩])
  obtain ⟨_, _, hreported⟩ := Tree.keys_lost_or_reported {} (Place.update.fill
    ([.token ⟨.key, .str "a"⟩, .token ⟨.value, .int 1⟩] ++ [.token ⟨.key, .str "id"⟩]))
  refine ⟨⟨q₁, hq₁, hkind, hfilter⟩, hunseen _ hdrops, ?_, ?_⟩
  · intro hkeys
    exact (hlost q₁ hq₁).1.mp hkeys ⟨_, hdrops⟩
  · exact (hreported Place.update _ "id" rfl (by rw [hupdate]; rfl) (by decide)).2 q₂ hq₂

end DocQuery
