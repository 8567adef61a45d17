import DocQuery.Proofs.Places

/-!
# Lists of names

A name alone says what a list of that one name says, and a list of names what its two parts say one after the other,
in every query and so in every clause of a tree (`Place.compile_values`). The exception is a star among the names to
count by: alone it counts rows, and in a list it is a name like any other.

`names_in_any_form` says this of the payloads in any query, and of the clauses in any tree.
-/

namespace DocQuery

/-- A list of names as a payload. -/
def Json.nameList (names : List String) : Json := .arr (names.map .str)

namespace Payload

theorem names_nameList (clause : Identifier) (names : List String) :
    Payload.names clause (.nameList names) = .ok names := by
  show nameItems clause (names.map .str) = .ok names
  induction names with
  | nil => rfl
  | cons name names ih =>
    rw [List.map_cons, nameItems, ih]
    rfl

theorem counted_str {name : String} (h : name ≠ "*") : counted (.str name) = .ok [name] := by
  unfold counted
  split
  · rename_i heq
    cases heq
  · rename_i heq
    cases heq
    exact absurd rfl h
  · rfl

end Payload

namespace Query

variable {q : Query}

/-! ## Projections and counts in parts -/

theorem select_append (q : Query) (xs ys : List String) : q.select (xs ++ ys) = (q.select xs).select ys := by
  simp only [select, List.foldl_append]
  cases q.stated <;> rfl

theorem countBy_eq (q : Query) (attr : String) :
    ∃ filter, q.countBy attr = { q with stated := some .count, grouping := q.grouping ++ [attr], filter } := by
  unfold countBy
  cases hcount : q.dialect.count with
  | pipeline => exact ⟨q.filter, by simp only [setKind, hcount]⟩
  | existence => exact ⟨_, by simp only [setKind, hcount]; rfl⟩

theorem countRows_of_stated (h : q.stated = some .count) : q.countRows = q := by
  simp only [countRows, setKind, ← h]

/-- A count by attributes stays a count. -/
theorem stated_countAll (h : q.stated = some .count) (names : List String) :
    (names.foldl countBy q).stated = some .count := by
  induction names generalizing q with
  | nil => exact h
  | cons name names ih =>
    obtain ⟨filter, hcount⟩ := q.countBy_eq name
    exact ih (by rw [hcount])

theorem assign_select (q : Query) (names : List String) :
    q.assign .select (.nameList names) = .ok (q.select names) := by
  rw [assign, Payload.names_nameList]
  rfl

theorem assign_count (q : Query) (names : List String) :
    q.assign .count (.nameList names) = .ok (names.foldl countBy q.countRows) := by
  have hcounted : Payload.counted (.nameList names) = .ok names := Payload.names_nameList .count names
  rw [assign, hcounted]
  rfl

/-- **A list in two parts**: each part says its names, one after the other. -/
theorem assign_nameList_append {clause : Identifier} (hclause : clause = .select ∨ clause = .count) (q : Query)
    (xs ys : List String) :
    ∃ q₁ q₂, q.assign clause (.nameList xs) = .ok q₁ ∧ q₁.assign clause (.nameList ys) = .ok q₂ ∧
      q.assign clause (.nameList (xs ++ ys)) = .ok q₂ := by
  rcases hclause with rfl | rfl
  · refine ⟨_, _, q.assign_select xs, assign_select _ ys, ?_⟩
    rw [assign_select, select_append]
  · refine ⟨_, _, q.assign_count xs, assign_count _ ys, ?_⟩
    -- The second part counts rows again, which says nothing new.
    rw [assign_count, List.foldl_append, countRows_of_stated (stated_countAll rfl xs)]

/-- **A name alone**, and in a list of its own. -/
theorem assign_str {clause : Identifier} (hclause : clause = .select ∨ clause = .distinct ∨ clause = .groupBy)
    (q : Query) (name : String) :
    ∃ q', q.assign clause (.str name) = .ok q' ∧ q.assign clause (.nameList [name]) = .ok q' := by
  rcases hclause with rfl | rfl | rfl <;> exact ⟨_, rfl, rfl⟩

theorem assign_count_str {name : String} (h : name ≠ "*") (q : Query) :
    q.assign .count (.str name) = q.assign .count (.nameList [name]) := by
  rw [assign_count, assign, Payload.counted_str h]
  rfl

theorem countBy_ne (q : Query) (name : String) : q.countBy name ≠ q := by
  intro h
  obtain ⟨filter, hcount⟩ := q.countBy_eq name
  have hgrouping : q.grouping ++ [name] = q.grouping := congrArg Query.grouping (hcount.symm.trans h)
  simp at hgrouping

/-- A star alone counts rows, and in a list it is one of the names. -/
theorem assign_count_forms (q : Query) (name : String) :
    ∃ q₁ q₂, q.assign .count (.str name) = .ok q₁ ∧ q.assign .count (.nameList [name]) = .ok q₂ ∧
      q₁ = (if name = "*" then q.countRows else q.countRows.countBy name) ∧ q₂ = q.countRows.countBy name ∧
      (q₁ = q₂ ↔ name ≠ "*") := by
  by_cases h : name = "*"
  · subst h
    refine ⟨q.countRows, q.countRows.countBy "*", rfl, q.assign_count ["*"], rfl, rfl, ?_⟩
    simp only [ne_eq, not_true_eq_false, iff_false]
    exact fun heq => q.countRows.countBy_ne "*" heq.symm
  · refine ⟨q.countRows.countBy name, q.countRows.countBy name, ?_, q.assign_count [name], (if_neg h).symm, rfl, ?_⟩
    · exact (assign_count_str h q).trans (q.assign_count [name])
    · simp [h]

end Query

/-! ## Values in a clause -/

/-- Values as the nodes of a clause. -/
def Group.ofValues (values : List Json) : List Node := values.map fun value => .token ⟨.value, value⟩

namespace Cursor

variable {c : Cursor} {i : Identifier}

/-- The values of a clause are used one by one. -/
theorem run_values (hs : c.scope = .values i) (values : List Json) :
    c.run (Group.ofValues values) =
      (values.foldlM (fun q value => Query.assign q i value) c.query).map ({ c with query := · }) := by
  induction values generalizing c with
  | nil => rfl
  | cons value values ih =>
    have hstep : (c.step (.token ⟨.value, value⟩)).result = (c.query.assign i value).map ({ c with query := · }) := by
      simp only [step, operand, hs, valueOperand_value, Attempt.result_ofExcept]
    have hnodes : Group.ofValues (value :: values) = .token ⟨.value, value⟩ :: Group.ofValues values := rfl
    rw [hnodes, run_cons, hstep, List.foldlM_cons]
    cases c.query.assign i value with
    | error e => rfl
    | ok q => exact ih (c := { c with query := q }) hs

end Cursor

/-- **Values can be exchanged** in a clause, if they do the same to every query. -/
theorem Place.compile_values (p : Place) (hscope : Scope.ofIdentifier p.identifier = .values p.identifier)
    {vs ws : List Json} (h : ∀ q : Query, vs.foldlM (fun q value => Query.assign q p.identifier value) q =
      ws.foldlM (fun q value => Query.assign q p.identifier value) q)
    {before after : List Node} (hbefore : ∀ n ∈ before, n.identifier? = none)
    (hafter : ∀ n ∈ after, n.identifier? = none) (dialect : Dialect) :
    compile dialect (p.fill (before ++ (Group.ofValues vs ++ after))) =
      compile dialect (p.fill (before ++ (Group.ofValues ws ++ after))) := by
  have hfree : ∀ vs, ∀ n ∈ before ++ (Group.ofValues vs ++ after), n.identifier? = none := by
    intro vs n hn
    rcases List.mem_append.mp hn with hn | hn
    · exact hbefore n hn
    · rcases List.mem_append.mp hn with hn | hn
      · obtain ⟨value, _, rfl⟩ := List.mem_map.mp hn
        rfl
      · exact hafter n hn
  rw [p.compile_fill (hfree vs), p.compile_fill (hfree ws)]
  refine bind_congr_ok fun q _ => ?_
  congr 1
  simp only [Query.readClause, Cursor.finish_append]
  refine bind_congr_ok fun c hrun => ?_
  have hs : c.scope = .values p.identifier := (Cursor.scope_run hbefore hrun).trans hscope
  rw [Cursor.run_values hs, Cursor.run_values hs, h]

/-- **Names can be given in any form.** In every query, a name alone says what a list with that name says, in a
projection, among distinct values and for groups of rows; when rows are counted, exactly if the name is no star. A
projection and a count by a list of names is one by its two parts. So it is with the clauses of any tree, wherever the
value stands. -/
theorem names_in_any_form (name : String) (xs ys : List String) :
    (∀ q : Query,
      (∀ clause, clause = .select ∨ clause = .distinct ∨ clause = .groupBy →
        ∃ q', q.assign clause (.str name) = .ok q' ∧ q.assign clause (.nameList [name]) = .ok q') ∧
      (∃ q₁ q₂, q.assign .count (.str name) = .ok q₁ ∧ q.assign .count (.nameList [name]) = .ok q₂ ∧
        q₁ = (if name = "*" then q.countRows else q.countRows.countBy name) ∧ q₂ = q.countRows.countBy name ∧
        (q₁ = q₂ ↔ name ≠ "*")) ∧
      (∀ clause, clause = .select ∨ clause = .count →
        ∃ q₁ q₂, q.assign clause (.nameList xs) = .ok q₁ ∧ q₁.assign clause (.nameList ys) = .ok q₂ ∧
          q.assign clause (.nameList (xs ++ ys)) = .ok q₂)) ∧
    (∀ (p : Place) (before after : List Node), (∀ n ∈ before, n.identifier? = none) →
      (∀ n ∈ after, n.identifier? = none) → ∀ dialect,
      (p.identifier = .select ∨ p.identifier = .distinct ∨ p.identifier = .groupBy ∨
          p.identifier = .count ∧ name ≠ "*" →
        compile dialect (p.fill (before ++ (Group.ofValues [.str name] ++ after))) =
          compile dialect (p.fill (before ++ (Group.ofValues [.nameList [name]] ++ after)))) ∧
      (p.identifier = .select ∨ p.identifier = .count →
        compile dialect (p.fill (before ++ (Group.ofValues [.nameList (xs ++ ys)] ++ after))) =
          compile dialect (p.fill (before ++ (Group.ofValues [.nameList xs, .nameList ys] ++ after))))) := by
  refine ⟨fun q => ⟨fun clause hclause => Query.assign_str hclause q name, q.assign_count_forms name,
    fun clause hclause => Query.assign_nameList_append hclause q xs ys⟩, ?_⟩
  intro p before after hbefore hafter dialect
  constructor
  · intro hname
    have hscope : Scope.ofIdentifier p.identifier = .values p.identifier := by
      rcases hname with h | h | h | ⟨h, _⟩ <;> rw [h] <;> rfl
    refine p.compile_values hscope (fun q => ?_) hbefore hafter dialect
    rcases hname with h | h | h | ⟨h, hstar⟩
    · rw [h]; rfl
    · rw [h]; rfl
    · rw [h]; rfl
    · simp only [List.foldlM_cons, List.foldlM_nil, h, Query.assign_count_str hstar]
  · intro hname
    have hscope : Scope.ofIdentifier p.identifier = .values p.identifier := by
      rcases hname with h | h <;> rw [h] <;> rfl
    refine p.compile_values hscope (fun q => ?_) hbefore hafter dialect
    obtain ⟨q₁, q₂, hxs, hys, happend⟩ := Query.assign_nameList_append hname q xs ys
    simp only [List.foldlM_cons, List.foldlM_nil, happend, hxs]
    show _ = q₁.assign p.identifier (.nameList ys) >>= pure
    rw [hys]

-- A star that is counted by is an attribute of that name.
example : [.str "*", .nameList ["*"]].map
    (fun payload => (compile {} ⟨[.token ⟨.identifier, .str "COUNT"⟩ :: Group.ofValues [payload]]⟩).toOption.map
      Query.grouping) = [some [], some ["*"]] := by
  decide +kernel

end DocQuery
