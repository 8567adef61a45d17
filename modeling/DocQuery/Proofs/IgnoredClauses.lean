import DocQuery.Proofs.Clauses

/-!
# Clauses without effect

Joins and unknown names open clauses that say nothing. Whatever stands in such a clause is passed over, malformed
tokens and arrays included (`step_of_ignored`, `finish_of_ignored`), and it leaves no trace behind: the clause before
it ends at its name, as it would at the next identifier, and the clause after it opens as if it had not been there.

`compile_without_ignored`: a clause without effect can be deleted.
-/

namespace DocQuery

/-- A token that opens a clause, or would do so if its payload were a name. -/
def Node.isIdentifier : Node → Bool
  | .token t => t.kind == .identifier
  | .group _ => false

/-- Joins, and the names that are not known. -/
def Identifier.isIgnored : Identifier → Bool
  | .join _ => true
  | .other _ => true
  | _ => false

/-- The nodes of a group from its first identifier on. -/
def Group.fromIdentifier (nodes : List Node) : List Node := nodes.dropWhile fun node => !node.isIdentifier

theorem Identifier.scope_of_isIgnored {i : Identifier} (h : i.isIgnored = true) :
    Scope.ofIdentifier i = .ignored i ∧ i ≠ .delete := by
  cases i with
  | join kind => exact ⟨rfl, nofun⟩
  | other name => exact ⟨rfl, nofun⟩
  | _ => cases h

theorem Group.fromIdentifier_cons_of_free {node : Node} (h : node.isIdentifier = false) (rest : List Node) :
    fromIdentifier (node :: rest) = fromIdentifier rest := by
  simp [fromIdentifier, h]

/-- What is left starts with an identifier, unless nothing is left. -/
theorem Group.fromIdentifier_cases (nodes : List Node) :
    fromIdentifier nodes = [] ∨ ∃ value after, fromIdentifier nodes = .token ⟨.identifier, value⟩ :: after := by
  cases h : fromIdentifier nodes with
  | nil => exact .inl rfl
  | cons node after =>
    refine .inr ?_
    have hhead : (!node.isIdentifier) = false := by
      have hfirst := List.head?_dropWhile_not (fun node => !Node.isIdentifier node) nodes
      rw [show nodes.dropWhile (fun node => !node.isIdentifier) = node :: after from h] at hfirst
      simpa using hfirst
    cases node with
    | group inner => cases hhead
    | token t =>
      obtain ⟨kind, value⟩ := t
      have hkind : kind = .identifier := by simpa [Node.isIdentifier] using hhead
      subst hkind
      exact ⟨value, after, rfl⟩

namespace Cursor

variable {c : Cursor} {i : Identifier}

/-! ## Inside the clause -/

/-- Anything but an identifier is passed over. -/
theorem step_of_ignored (hs : c.scope = .ignored i) {node : Node} (hn : node.isIdentifier = false) :
    c.step node = ⟨c, none⟩ := by
  cases node with
  | group nodes => simp only [step, group, hs]
  | token t =>
    obtain ⟨kind, value⟩ := t
    cases kind with
    | identifier => cases hn
    | condition => simp only [step, condition, hs]
    | key | operator | value => simp only [step, operand, hs]

theorem finish_of_ignored (hs : c.scope = .ignored i) (nodes : List Node) :
    c.finish nodes = c.finish (Group.fromIdentifier nodes) := by
  induction nodes with
  | nil => rfl
  | cons node rest ih =>
    cases hn : node.isIdentifier with
    | true =>
      have hkept : Group.fromIdentifier (node :: rest) = node :: rest := by simp [Group.fromIdentifier, hn]
      rw [hkept]
    | false =>
      rw [Group.fromIdentifier_cons_of_free hn, ← ih, finish_cons, step_of_ignored hs hn]
      rfl

/-! ## Around the clause -/

theorem finish_identifier (c : Cursor) (name : String) (rest : List Node) :
    c.finish (.token ⟨.identifier, .str name⟩ :: rest) =
      c.endClause.result >>= fun c => (c.openClause (.ofName name)).finish rest := by
  rw [finish_cons, step_identifier, bind_assoc]
  rfl

/-- An identifier without a name is refused. -/
theorem finish_nameless {value : Json} (hn : (Node.token ⟨.identifier, value⟩).identifier? = none)
    (c : Cursor) (rest : List Node) : (c.finish (.token ⟨.identifier, value⟩ :: rest)).toOption = none := by
  rw [finish_cons, toOption_bind]
  cases h : (c.step (.token ⟨.identifier, value⟩)).result with
  | error e => rfl
  | ok c' => exact absurd h (identifier_ne_ok hn)

/-- A clause that opens after one without effect opens as after the clause before. -/
theorem openClause_openClause (hi : i ≠ .delete) (c : Cursor) (j : Identifier) :
    (c.openClause i).openClause j = c.openClause j := by
  simp only [openClause, if_neg hi]

/-- A clause without effect ends as it began. -/
theorem endClause_openClause (hi : i.isIgnored = true) (c : Cursor) :
    (c.openClause i).endClause = ⟨c.openClause i, none⟩ ∧ (c.openClause i).query = c.query := by
  obtain ⟨hscope, hdelete⟩ := Identifier.scope_of_isIgnored hi
  constructor
  · have hpairs : (c.openClause i).scope.pairClause? = none := by
      show (Scope.ofIdentifier i).pairClause? = none
      rw [hscope]
      rfl
    simp only [endClause, hpairs]
  · simp only [openClause, if_neg hdelete]

/-- A run that meets a clause without effect goes on with what comes after it. Only an error can be another one: a name
that is missing after the clause is noticed later than the end of the clause before. -/
theorem finish_without_ignored {name : String} (h : (Identifier.ofName name).isIgnored = true) (c : Cursor)
    (rest : List Node) :
    (c.finish (.token ⟨.identifier, .str name⟩ :: rest)).toOption =
        (c.finish (Group.fromIdentifier rest)).toOption ∧
      ((∀ node ∈ (Group.fromIdentifier rest).head?, node.identifier?.isSome = true) →
        c.finish (.token ⟨.identifier, .str name⟩ :: rest) = c.finish (Group.fromIdentifier rest)) := by
  obtain ⟨hscope, hdelete⟩ := Identifier.scope_of_isIgnored h
  have hskip : c.finish (.token ⟨.identifier, .str name⟩ :: rest) =
      c.endClause.result >>= fun c => (c.openClause (.ofName name)).finish (Group.fromIdentifier rest) := by
    rw [finish_identifier]
    exact bind_congr_ok fun c' _ => finish_of_ignored hscope rest
  rw [hskip]
  rcases Group.fromIdentifier_cases rest with hnil | ⟨value, after, hcons⟩
  · have heq : (c.endClause.result >>= fun c => (c.openClause (.ofName name)).finish []) = c.finish [] := by
      rw [finish_nil]
      refine bind_congr_ok fun c' _ => ?_
      obtain ⟨hend, hquery⟩ := endClause_openClause h c'
      rw [finish_nil, hend]
      exact congrArg Except.ok hquery
    rw [hnil]
    exact ⟨congrArg Except.toOption heq, fun _ => heq⟩
  · rw [hcons]
    cases hnode : (Node.token ⟨.identifier, value⟩).identifier? with
    | none =>
      refine ⟨?_, fun hnamed => ?_⟩
      · rw [finish_nameless hnode, toOption_bind]
        cases c.endClause.result with
        | error e => rfl
        | ok c' => exact finish_nameless hnode _ after
      · have hsome := hnamed _ (by rfl)
        rw [hnode] at hsome
        cases hsome
    | some j =>
      obtain ⟨next, hnext, _⟩ := Node.eq_of_identifier? hnode
      rw [hnext]
      have heq : (c.endClause.result >>= fun c =>
          (c.openClause (.ofName name)).finish (.token ⟨.identifier, .str next⟩ :: after)) =
          c.finish (.token ⟨.identifier, .str next⟩ :: after) := by
        rw [finish_identifier]
        refine bind_congr_ok fun c' _ => ?_
        obtain ⟨hend, _⟩ := endClause_openClause h c'
        rw [finish_identifier, hend]
        show ((c'.openClause _).openClause _).finish after = _
        rw [openClause_openClause hdelete]
      exact ⟨congrArg Except.toOption heq, fun _ => heq⟩

end Cursor

/-! ## Trees -/

/-- A group may be exchanged for one that is walked with the same result. -/
theorem compile_congr_group {g g' : Group} (h : ∀ q : Query, (q.walk g).toOption = (q.walk g').toOption)
    (dialect : Dialect) (groups others : List Group) :
    (compile dialect ⟨groups ++ g :: others⟩).toOption = (compile dialect ⟨groups ++ g' :: others⟩).toOption := by
  simp only [compile, List.foldlM_append, List.foldlM_cons, toOption_bind, h]

/-- **Clauses without effect can be deleted.** A join or an unknown name, with all that follows it up to the next
identifier of the group or its end, may be left out of a tree: it compiles to the same query, or is refused as before.
It is refused with the same error, unless an identifier without a name comes next. -/
theorem compile_without_ignored {name : String} (h : (Identifier.ofName name).isIgnored = true) (dialect : Dialect)
    (groups others : List Group) (before rest : List Node) :
    (compile dialect ⟨groups ++ (before ++ .token ⟨.identifier, .str name⟩ :: rest) :: others⟩).toOption =
        (compile dialect ⟨groups ++ (before ++ Group.fromIdentifier rest) :: others⟩).toOption ∧
      ((∀ node ∈ (Group.fromIdentifier rest).head?, node.identifier?.isSome = true) →
        compile dialect ⟨groups ++ (before ++ .token ⟨.identifier, .str name⟩ :: rest) :: others⟩ =
          compile dialect ⟨groups ++ (before ++ Group.fromIdentifier rest) :: others⟩) := by
  constructor
  · refine compile_congr_group (fun q => ?_) dialect groups others
    show (({ query := q } : Cursor).finish (before ++ _)).toOption =
      (({ query := q } : Cursor).finish (before ++ _)).toOption
    simp only [Cursor.finish_append, toOption_bind, (Cursor.finish_without_ignored h _ rest).1]
  · intro hnamed
    have hwalk : ∀ q : Query, q.walk (before ++ .token ⟨.identifier, .str name⟩ :: rest) =
        q.walk (before ++ Group.fromIdentifier rest) := by
      intro q
      show ({ query := q } : Cursor).finish (before ++ _) = ({ query := q } : Cursor).finish (before ++ _)
      simp only [Cursor.finish_append, (Cursor.finish_without_ignored h _ rest).2 hnamed]
    simp only [compile, List.foldlM_append, List.foldlM_cons, hwalk]

/-- Tokens with the wrong payloads and an array with an identifier, none of which another clause would take. -/
def Group.scraps : List Node := [
  .token ⟨.key, .null⟩, .token ⟨.condition, .int 5⟩, .group [.token ⟨.identifier, .str "LIMIT"⟩],
  .token ⟨.operator, .arr []⟩, .token ⟨.value, .str "b"⟩]

/-- A sort clause with a pair that waits for the end of the clause. -/
def Group.descending : List Node := [
  .token ⟨.identifier, .str "ORDERBY"⟩, .token ⟨.key, .str "a"⟩, .token ⟨.value, .str "desc"⟩]

def Group.limited : List Node := [.token ⟨.identifier, .str "LIMIT"⟩, .token ⟨.value, .int 3⟩]

theorem compile_without_ignored_join : (Identifier.ofName "leftJoin").isIgnored = true ∧
    ∃ q, compile {} ⟨[Group.descending ++ .token ⟨.identifier, .str "leftJoin"⟩ :: (Group.scraps ++ Group.limited)]⟩ =
        .ok q ∧
      compile {} ⟨[Group.descending ++ Group.limited]⟩ = .ok q := by
  have hjoin : (Identifier.ofName "leftJoin").isIgnored = true := by decide +kernel
  have hok : (compile {} ⟨[Group.descending ++ Group.limited]⟩).isOk = true := by decide +kernel
  obtain ⟨q, hq⟩ := exists_eq_ok hok
  have hrest : Group.fromIdentifier (Group.scraps ++ Group.limited) = Group.limited := rfl
  have hsame := (compile_without_ignored hjoin {} [] [] Group.descending (Group.scraps ++ Group.limited)).2
  rw [hrest] at hsame
  exact ⟨hjoin, q, (hsame (by decide)).trans hq, hq⟩

end DocQuery
