import DocQuery.Proofs.Merging.Associativity
import DocQuery.Proofs.Places
import DocQuery.Proofs.Simulation

/-!
# Splitting a clause of pairs

The pairs of a clause are merged into a document of their own first, and that document is merged into the values of
the query. So a clause and its two parts give the same query if merging is associative, and it is not: an object of the
query may be revived by the two parts, and in the empty query one of the first part by the pairs of the second
(`Pairs.Revives`).

`Query.walk_split` says when a clause of pairs can be split. A sort clause always can.
-/

namespace DocQuery

/-! ## Documents -/

namespace Pairs

variable {p r : List (String × Json)}

/-- No value repeats a key. -/
def HaveUniqueKeys (pairs : List (String × Json)) : Prop := ∀ p ∈ pairs, p.2.hasUniqueKeys = true

/-- The pairs of a document are merged one by one. -/
theorem document_append (p r : List (String × Json)) : document (p ++ r) = (document p).merge r := by
  have run : ∀ (pairs : List (String × Json)) (o : Object),
      pairs.foldl (fun o p => o.merge [p]) o = Object.merge o pairs := by
    intro pairs
    induction pairs with
    | nil => exact fun o => rfl
    | cons pair pairs ih =>
      intro o
      obtain ⟨key, value⟩ := pair
      rw [List.foldl_cons, ih]
      simp only [Object.merge]
  rw [document, List.foldl_append, run r]
  rfl

theorem document_eq (pairs : List (String × Json)) : document pairs = Object.merge [] pairs := document_append [] pairs

theorem hasUniqueKeys_document (h : HaveUniqueKeys p) : (Json.obj (document p)).hasUniqueKeys = true := by
  have run : ∀ (pairs : List (String × Json)) (o : Object), HaveUniqueKeys pairs →
      (Json.obj o).hasUniqueKeys = true →
        (Json.obj (pairs.foldl (fun (o : Object) p => o.merge [p]) o)).hasUniqueKeys = true := by
    intro pairs
    induction pairs with
    | nil => exact fun _ _ ho => ho
    | cons pair pairs ih =>
      intro o hpairs ho
      obtain ⟨hpair, hpairs⟩ := List.forall_mem_cons.mp hpairs
      exact ih _ hpairs (Object.hasUniqueKeys_merge ho (Json.hasUniqueKeys_single pair.1 hpair))
  exact run p [] h rfl

/-- Pairs on different keys are a document as they are. -/
theorem document_append_of_nodup (p : List (String × Json)) (hr : (r.map (·.1)).Nodup) :
    document (p ++ r) = (document p).merge (document r) := by
  have hdocument : document r = r := by rw [document_eq, Object.nil_merge hr]
  rw [document_append, hdocument]

/-- At some path the first pairs leave an object, one of the second has something else, and the second leave an object
that lacks a part of the first. -/
def Revives (p r : List (String × Json)) : Prop :=
  ∃ path x u y, (document p).at? path = some (.obj x) ∧ (∃ pair ∈ r, Object.at? path [pair] = some u) ∧
    u.isObject = false ∧ (document r).at? path = some (.obj y) ∧ Object.merge x y ≠ y

/-- **When pairs can be split**: exactly if no object of the first part is revived by the second. -/
theorem document_append_iff (hp : HaveUniqueKeys p) (hr : HaveUniqueKeys r) :
    document (p ++ r) = (document p).merge (document r) ↔ ¬ Revives p r := by
  have hall : ∀ t : Object, r.foldl (fun o pair => o.merge [pair]) t = Object.mergeAll t (r.map fun pair => [pair]) :=
    fun t => by rw [Object.mergeAll, List.foldl_map]
  have hunique : ∀ o ∈ r.map fun pair => [pair], (Json.obj o).hasUniqueKeys = true :=
    List.forall_mem_map.mpr fun pair hpair => Json.hasUniqueKeys_single pair.1 (hr pair hpair)
  have hiff := Object.mergeAll_eq_iff (hasUniqueKeys_document hp) hunique
  simp only [Object.RevivedBy, ← hall, List.mem_map, exists_exists_and_eq_and] at hiff
  rw [document, List.foldl_append]
  exact hiff

/-! ## Clauses of pairs -/

/-- The tokens of pairs. -/
def nodes (pairs : List (String × Json)) : List Node :=
  pairs.flatMap fun p => [.token ⟨.key, .str p.1⟩, .token ⟨.value, p.2⟩]

/-- A clause of pairs. -/
def clause (name : String) (pairs : List (String × Json)) : Group := .token ⟨.identifier, .str name⟩ :: nodes pairs

end Pairs

namespace Cursor

variable {c : Cursor} {i : Identifier}

theorem run_pairs (hs : c.scope.pairClause? = some i) (hkey : c.pairs.key = none) (pairs : List (String × Json)) :
    c.run (Pairs.nodes pairs) = .ok { c with pairs := ⟨none, c.pairs.complete ++ pairs⟩ } := by
  induction pairs generalizing c with
  | nil =>
    rw [List.append_nil, ← hkey]
    rfl
  | cons p pairs ih =>
    obtain ⟨key, value⟩ := p
    let read : Cursor := { c with pairs := ⟨none, c.pairs.complete ++ [(key, value)]⟩ }
    have hpair : c.run [.token ⟨.key, .str key⟩, .token ⟨.value, value⟩] = .ok read := by
      have hwaiting : (c.step (.token ⟨.key, .str key⟩)).result = .ok { c with pairs := c.pairs.setKey key } := by
        simp only [step, operand_pairs hs, pairOperand, Attempt.result_ofExcept]
        rfl
      have hcomplete : (({ c with pairs := c.pairs.setKey key } : Cursor).step (.token ⟨.value, value⟩)).result =
          .ok read := by
        simp only [step, operand_pairs (c := { c with pairs := c.pairs.setKey key }) hs, pairOperand,
          Attempt.result_ofExcept]
        rfl
      rw [run_cons, hwaiting]
      show ({ c with pairs := c.pairs.setKey key } : Cursor).run [.token ⟨.value, value⟩] = _
      rw [run_cons, hcomplete]
      rfl
    have hnodes : Pairs.nodes ((key, value) :: pairs) =
        [.token ⟨.key, .str key⟩, .token ⟨.value, value⟩] ++ Pairs.nodes pairs := rfl
    rw [hnodes, run_append, hpair]
    show read.run (Pairs.nodes pairs) = _
    rw [ih (c := read) hs rfl]
    simp [read]

/-- A clause that ends gives its pairs to the query. -/
theorem finish_pairs (hs : c.scope.pairClause? = some i) (hkey : c.pairs.key = none) (pairs : List (String × Json)) :
    c.finish (Pairs.nodes pairs) = (c.query.flush i (c.pairs.complete ++ pairs)).result := by
  let read : Cursor := { c with pairs := ⟨none, c.pairs.complete ++ pairs⟩ }
  have hend : read.endClause.result =
      (c.query.flush i (c.pairs.complete ++ pairs)).result.map fun q => { c with pairs := {}, query := q } :=
    result_endClause (c := read) hs
  rw [finish, run_pairs hs hkey]
  show read.endClause.result >>= _ = _
  rw [hend]
  cases (c.query.flush i (c.pairs.complete ++ pairs)).result <;> rfl

end Cursor

namespace Query

variable {name : String}

/-- A clause of pairs does to a query what its pairs do. -/
theorem walk_pairs (hs : (Scope.ofIdentifier (.ofName name)).pairClause? = some (.ofName name)) (q : Query)
    (pairs : List (String × Json)) : q.walk (Pairs.clause name pairs) = (q.flush (.ofName name) pairs).result := by
  have hdelete : Identifier.ofName name ≠ .delete := by
    intro h
    rw [h] at hs
    cases hs
  have hopen : (q.openClause (.ofName name)).query = q := if_neg hdelete
  have hfinish := Cursor.finish_pairs (c := q.openClause (.ofName name)) hs rfl pairs
  rw [hopen] at hfinish
  rw [Pairs.clause, walk_clause]
  exact hfinish

/-- Two clauses of pairs, one after the other. -/
theorem walk_pairs_append (hs : (Scope.ofIdentifier (.ofName name)).pairClause? = some (.ofName name)) (q : Query)
    (p r : List (String × Json)) :
    q.walk (Pairs.clause name p ++ Pairs.clause name r) =
      (q.flush (.ofName name) p).result >>= fun q => (q.flush (.ofName name) r).result := by
  have happend := q.walk_append_identifier (Pairs.clause name p) (Pairs.nodes r) name
  rw [walk_pairs hs] at happend
  refine happend.trans (bind_congr_ok fun q' _ => ?_)
  exact walk_pairs hs q' r

theorem sortAll_result_append (q : Query) (p r : List (String × Json)) :
    (q.sortAll (p ++ r)).result = (q.sortAll p).result >>= fun q => (q.sortAll r).result := by
  induction p generalizing q with
  | nil => rfl
  | cons pair p ih =>
    obtain ⟨attr, direction⟩ := pair
    rw [List.cons_append, result_sortAll_cons, result_sortAll_cons, bind_assoc]
    exact bind_congr_ok fun q' _ => ih q'

/-- One clause with all pairs, or two clauses. -/
def Splits (name : String) (p r : List (String × Json)) (q : Query) : Prop :=
  q.walk (Pairs.clause name (p ++ r)) = q.walk (Pairs.clause name p ++ Pairs.clause name r)

variable {p r : List (String × Json)}

theorem splits_orderBy (hname : Identifier.ofName name = .orderBy) (q : Query) : Splits name p r q := by
  have hs : (Scope.ofIdentifier (.ofName name)).pairClause? = some (.ofName name) := by rw [hname]; rfl
  rw [Splits, walk_pairs hs, walk_pairs_append hs, hname]
  exact q.sortAll_result_append p r

/-- A clause that gives values can be split where the documents can. -/
theorem splits_iff (hname : Identifier.ofName name = .insert ∨ Identifier.ofName name = .update) (q : Query) :
    Splits name p r q ↔
      q.values.merge (Pairs.document (p ++ r)) = (q.values.merge (Pairs.document p)).merge (Pairs.document r) := by
  have hs : (Scope.ofIdentifier (.ofName name)).pairClause? = some (.ofName name) := by
    rcases hname with h | h <;> rw [h] <;> rfl
  rw [Splits, walk_pairs hs, walk_pairs_append hs]
  rcases hname with h | h
  · rw [h]
    show (Except.ok (q.insert _) : Except BuildError Query) = .ok ((q.insert _).insert _) ↔ _
    simp [Query.insert]
  · rw [h]
    show (Except.ok (q.update _) : Except BuildError Query) = .ok ((q.update _).update _) ↔ _
    simp [Query.update]

/-- In the empty query, the values are the documents. -/
theorem splits_empty_iff (hname : Identifier.ofName name = .insert ∨ Identifier.ofName name = .update)
    (h : Pairs.HaveUniqueKeys (p ++ r)) :
    Splits name p r {} ↔ Pairs.document (p ++ r) = (Pairs.document p).merge (Pairs.document r) := by
  have hnil : ∀ {pairs : List (String × Json)}, Pairs.HaveUniqueKeys pairs →
      Object.merge [] (Pairs.document pairs) = Pairs.document pairs :=
    fun hpairs => Object.nil_merge (Json.nodup_keys_of_hasUniqueKeys (Pairs.hasUniqueKeys_document hpairs))
  rw [splits_iff hname]
  show Object.merge [] _ = (Object.merge [] _).merge _ ↔ _
  rw [hnil h, hnil fun pair hpair => h pair (List.mem_append_left r hpair)]

/-- **When a clause of pairs can be split in two.** A sort clause can be split anywhere, in every query. A clause that
gives values cannot: its pairs are merged among themselves first, and a value that is no object is forgotten if an
object follows it there. In the empty query, splitting does not matter exactly if no object of the first part is revived
by the pairs of the second, and so if the second part has no key twice. If it does not matter there, it matters in
exactly those queries in which an object is revived, and there are such queries unless the second part has no object
where the first has something else. -/
theorem walk_split (p r : List (String × Json)) :
    (∀ name q, Identifier.ofName name = .orderBy → Splits name p r q) ∧
    (∀ name, Identifier.ofName name = .insert ∨ Identifier.ofName name = .update → Pairs.HaveUniqueKeys (p ++ r) →
      ((r.map (·.1)).Nodup → Splits name p r {}) ∧
      (Splits name p r {} ↔ ¬ Pairs.Revives p r) ∧
      (Splits name p r {} → ∀ q : Query, (Json.obj q.values).hasUniqueKeys = true →
        (Splits name p r q ↔ ¬ q.values.Revives (Pairs.document p) (Pairs.document r))) ∧
      ((∀ q : Query, (Json.obj q.values).hasUniqueKeys = true → Splits name p r q) ↔
        Splits name p r {} ∧ ∀ path u y, (Pairs.document p).at? path = some u → u.isObject = false →
          (Pairs.document r).at? path ≠ some (.obj y))) := by
  refine ⟨fun name q hname => splits_orderBy hname q, fun name hname h => ?_⟩
  obtain ⟨hpairs, hpairs'⟩ := List.forall_mem_append.mp h
  have hp := Pairs.hasUniqueKeys_document hpairs
  have hr := Pairs.hasUniqueKeys_document hpairs'
  refine ⟨fun hnodup => ?_, ?_, fun hempty q hq => ?_, fun hall => ?_, ?_⟩
  · exact (splits_empty_iff hname h).mpr (Pairs.document_append_of_nodup p hnodup)
  · rw [splits_empty_iff hname h, Pairs.document_append_iff hpairs hpairs']
  · rw [splits_iff hname, (splits_empty_iff hname h).mp hempty]
    exact Object.merge_assoc_iff hq hp hr
  · have hempty := hall {} rfl
    refine ⟨hempty, (Object.forall_merge_assoc_iff hp hr).mp fun t ht => ?_⟩
    have ht := (splits_iff hname _).mp (hall { values := t } ht)
    rwa [(splits_empty_iff hname h).mp hempty] at ht
  · rintro ⟨hempty, hpath⟩ q hq
    rw [splits_iff hname, (splits_empty_iff hname h).mp hempty]
    exact (Object.forall_merge_assoc_iff hp hr).mpr hpath q.values hq

/-- A number is written over an object, and an object over the number. -/
theorem walk_split_overwritten :
    ¬ Splits "INSERT" [("a", .single "x" (.int 0))] [("a", .int 1), ("a", .single "c" (.int 2))] {} ∧
    Splits "INSERT" [("a", .int 1)] [("a", .single "c" (.int 2))] {} ∧
    ¬ Splits "INSERT" [("a", .int 1)] [("a", .single "c" (.int 2))] { values := [("a", .single "x" (.int 0))] } ∧
    ¬ (∀ q : Query, (Json.obj q.values).hasUniqueKeys = true →
      Splits "update" [("a", .int 1)] [("a", .single "c" (.int 2))] q) ∧
    Splits "ORDERBY" [("a", .int 1)] [("a", .str "desc")] {} := by
  have hinsert : Identifier.ofName "INSERT" = .insert := by decide +kernel
  have hupdate : Identifier.ofName "update" = .update := by decide +kernel
  have horder : Identifier.ofName "ORDERBY" = .orderBy := by decide +kernel
  have hunique : Pairs.HaveUniqueKeys [("a", .int 1), ("a", .single "c" (.int 2))] := by
    intro pair hpair
    simp only [List.mem_cons, List.not_mem_nil, or_false] at hpair
    rcases hpair with rfl | rfl <;> decide +kernel
  have hpairs := walk_split [("a", .single "x" (.int 0))] [("a", .int 1), ("a", .single "c" (.int 2))]
  obtain ⟨_, hrevives, _⟩ := hpairs.2 "INSERT" (.inl hinsert) (List.forall_mem_cons.mpr ⟨rfl, hunique⟩)
  have hsplit := walk_split [("a", .int 1)] [("a", .single "c" (.int 2))]
  obtain ⟨hempty, _, hquery, _⟩ := hsplit.2 "INSERT" (.inl hinsert) hunique
  obtain ⟨_, _, _, hall⟩ := hsplit.2 "update" (.inr hupdate) hunique
  have hone := hempty (by simp)
  refine ⟨?_, hone, ?_, ?_, (walk_split _ _).1 "ORDERBY" {} horder⟩
  · rw [hrevives, not_not]
    exact ⟨["a"], [("x", .int 0)], .int 1, [("c", .int 2)], by decide +kernel,
      ⟨("a", .int 1), List.mem_cons_self, by decide +kernel⟩, rfl, by decide +kernel, by decide +kernel⟩
  · rw [hquery hone _ (by decide +kernel)]
    intro hno
    exact hno ⟨["a"], [("x", .int 0)], .int 1, [("c", .int 2)], by decide +kernel, by decide +kernel, rfl,
      by decide +kernel, by decide +kernel⟩
  · intro h
    exact (hall.mp h).2 ["a"] (.int 1) [("c", .int 2)] (by decide +kernel) rfl (by decide +kernel)

end Query

end DocQuery
