import DocQuery.Proofs.LostKeys.Arrays

/-!
# Keys without a value in clauses

At the top of a filter clause a key waits for its value up to the next key, the next array or the end of the clause.
In a clause of pairs it waits up to the next key. If no value has come by then it is lost, and the clause is read as
if it were not there (`Segment.Drops.readClause_eq`). Only a key at the end of a clause of pairs is reported
(`Query.readClause_of_key_last`).

`Segment.exists_drops_iff`: in a clause that has been read, something is lost if and only if some key, at any depth,
is not completed by a value.
-/

namespace DocQuery

open Grouping

/-! ## Losses -/

namespace Node

def isOperator : Node → Bool
  | .token ⟨.operator, .str _⟩ => true
  | _ => false

def isKey : Node → Bool
  | .token ⟨.key, _⟩ => true
  | _ => false

theorem eq_of_isKey {n : Node} (h : n.isKey = true) : ∃ key, n = .token ⟨.key, key⟩ := by
  unfold isKey at h
  split at h
  · exact ⟨_, rfl⟩
  · cases h

theorem eq_of_isGroup {n : Node} (h : isGroup n = true) : ∃ nodes, n = .group nodes := by
  cases n with
  | token t => cases h
  | group nodes => exact ⟨nodes, rfl⟩

end Node

namespace Identifier

/-- A clause that collects pairs of keys and values. -/
def collectsPairs (i : Identifier) : Bool := (Scope.ofIdentifier i).pairClause?.isSome

/-- A clause in which keys stand. -/
def takesKeys : Identifier → Bool
  | .where_ | .insert | .update | .orderBy => true
  | _ => false

theorem takesKeys_iff {i : Identifier} : i.takesKeys = true ↔ i = .where_ ∨ i.collectsPairs = true := by
  cases i <;> simp [takesKeys, collectsPairs, Scope.ofIdentifier, Scope.pairClause?]

end Identifier

/-- One loss in a clause: a key that gets no value, with its operators, or a loss in an array. -/
inductive Segment.Drops : Identifier → List Node → List Node → Prop
  | key {pre mid post : List Node} {key : String} (hmid : ∀ n ∈ mid, n.isOperator = true ∨ n.isWord = true)
      (hpost : ∀ n ∈ post.head?, n.isKey = true ∨ isGroup n = true) :
      Drops .where_ (pre ++ .token ⟨.key, .str key⟩ :: (mid ++ post)) (pre ++ (mid.filter Node.isWord ++ post))
  | array {pre post a a' : List Node} (h : Group.Drops a a') :
      Drops .where_ (pre ++ .group a :: post) (pre ++ .group a' :: post)
  | pair {i : Identifier} {pre post : List Node} {key : String} {next : Json} (hi : i.collectsPairs = true) :
      Drops i (pre ++ .token ⟨.key, .str key⟩ :: .token ⟨.key, next⟩ :: post) (pre ++ .token ⟨.key, next⟩ :: post)

namespace Cursor

variable {c c' : Cursor}

/-! ## Losses among conditions -/

/-- A word does not look at the draft. -/
theorem conditionWord_draft (c : Cursor) (d : Draft) (word : String) :
    ({ c with draft := d } : Cursor).conditionWord word = { c.conditionWord word with draft := d } := by
  unfold conditionWord
  split <;> rfl

/-- At the top of a clause, the draft holds a key or nothing at all. -/
theorem settled_run (hs : c.scope = .conditions) {nodes : List Node} (hn : ∀ n ∈ nodes, n.identifier? = none)
    (hd : c.draft.Settled) (h : c.run nodes = .ok c') : c'.draft.Settled := by
  induction nodes generalizing c with
  | nil =>
    cases h
    exact hd
  | cons node rest ih =>
    rw [List.forall_mem_cons] at hn
    rw [run_cons, bind_eq_ok] at h
    obtain ⟨c₁, hstep, hrest⟩ := h
    have hs₁ : c₁.scope = .conditions := by rw [(step_frame hn.1 hstep).1, hs]
    refine ih hs₁ hn.2 ?_ hrest
    cases step_conditions hs hn.1 hstep with
    | array _ => exact .inl rfl
    | key key => exact .inr (Draft.isSome_key_setKey c.draft key)
    | operator h =>
      obtain ⟨hkey, rfl⟩ := Draft.setOperator_eq_ok.mp h
      exact .inr hkey
    | value hd _ =>
      obtain ⟨key, hkey, _, _, rfl⟩ := Draft.complete_eq_ok.mp hd
      exact .inr (by simp [hkey])
    | word word => rwa [draft_conditionWord]

theorem step_word (hs : c.scope = .conditions) (word : String) :
    (c.step (.token ⟨.condition, .str word⟩)).result = .ok (c.conditionWord word) := by
  simp [step, condition, hs, Token.string, Except.map]

/-- A key that waits still waits, and only the words are seen. -/
theorem run_waiting {mid : List Node} (hmid : ∀ n ∈ mid, n.isOperator = true ∨ n.isWord = true)
    (hs : c.scope = .conditions) {d : Draft} (hd : d.key.isSome = true) :
    ∃ c' d', c.run (mid.filter Node.isWord) = .ok c' ∧ c'.scope = .conditions ∧ c'.draft = c.draft ∧
      d'.key.isSome = true ∧ ({ c with draft := d } : Cursor).run mid = .ok { c' with draft := d' } := by
  induction mid generalizing c d with
  | nil => exact ⟨c, d, rfl, hs, rfl, hd, rfl⟩
  | cons n rest ih =>
    rw [List.forall_mem_cons] at hmid
    match n, hmid.1 with
    | .token ⟨.operator, .str operator⟩, _ =>
      let d₀ : Draft := { d with operator := some operator, done := false }
      obtain ⟨c', d', hrun, hs', hdraft, hd', hwait⟩ := ih hmid.2 hs (d := d₀) hd
      refine ⟨c', d', hrun, hs', hdraft, hd', ?_⟩
      have hset : d.setOperator operator = .ok d₀ := Draft.setOperator_eq_ok.mpr ⟨hd, rfl⟩
      rw [run_cons]
      refine bind_eq_ok.mpr ⟨_, ?_, hwait⟩
      simp only [step, operand, hs, conditionOperand_operator, Attempt.result_ofExcept]
      exact bind_eq_ok.mpr ⟨operator, rfl, bind_eq_ok.mpr ⟨_, hset, rfl⟩⟩
    | .token ⟨.condition, .str word⟩, _ =>
      have hs₁ : (c.conditionWord word).scope = .conditions := by rw [scope_conditionWord, hs]
      obtain ⟨c', d', hrun, hs', hdraft, hd', hwait⟩ := ih hmid.2 hs₁ hd
      refine ⟨c', d', ?_, hs', by rw [hdraft, draft_conditionWord], hd', ?_⟩
      · rw [List.filter_cons_of_pos rfl, run_cons, step_word hs]
        exact hrun
      · rw [run_cons, step_word (c := { c with draft := d }) hs, conditionWord_draft]
        exact hwait

/-- Where a wait ends, it does not matter which key waited. -/
theorem finish_congr {post : List Node} (hs : c.scope = .conditions)
    (hpost : ∀ n ∈ post.head?, n.isKey = true ∨ isGroup n = true) {d : Draft} (hd : d.Settled) (hd' : c.draft.Settled) :
    ({ c with draft := d } : Cursor).finish post = c.finish post := by
  cases post with
  | nil => simp [finish_nil, endClause, hs, Scope.pairClause?, Attempt.result]
  | cons n rest =>
    rw [finish_cons, finish_cons]
    rcases hpost n rfl with hkey | hgroup
    · obtain ⟨key, rfl⟩ := Node.eq_of_isKey hkey
      simp only [step, operand, hs, conditionOperand, Attempt.result_ofExcept, hd.setKey, hd'.setKey]
    · obtain ⟨nodes, rfl⟩ := Node.eq_of_isGroup hgroup
      simp only [step, group, hs]

/-- A key that gets no value, with its operators, is not seen. -/
theorem finish_of_key_lost {mid post : List Node} {key : String} (hs : c.scope = .conditions) (hd : c.draft.Settled)
    (hmid : ∀ n ∈ mid, n.isOperator = true ∨ n.isWord = true)
    (hpost : ∀ n ∈ post.head?, n.isKey = true ∨ isGroup n = true) :
    c.finish (.token ⟨.key, .str key⟩ :: (mid ++ post)) = c.finish (mid.filter Node.isWord ++ post) := by
  have hstep : (c.step (.token ⟨.key, .str key⟩)).result = .ok { c with draft := c.draft.setKey key } := by
    simp [step, operand, hs, conditionOperand, Token.string, Except.map]
  obtain ⟨c', d', hrun, hs', hdraft, hd', hwait⟩ := run_waiting hmid hs (Draft.isSome_key_setKey c.draft key)
  rw [finish_cons, hstep, finish_append, hrun]
  show ({ c with draft := c.draft.setKey key } : Cursor).finish (mid ++ post) = c'.finish post
  rw [finish_append, hwait]
  exact finish_congr hs' hpost (.inr hd') (by rwa [hdraft])

/-! ## Losses among pairs -/

theorem step_pair_key {i : Identifier} (hs : c.scope.pairClause? = some i) (key : Json) :
    (c.step (.token ⟨.key, key⟩)).result =
      (Token.string ⟨.key, key⟩).map fun key => { c with pairs := c.pairs.setKey key } := by
  simp only [step, operand_pairs hs, pairOperand, Attempt.result_ofExcept]

/-- A key gives way to the next. -/
theorem finish_of_pair_lost {i : Identifier} (hs : c.scope.pairClause? = some i) (key : String) (next : Json)
    (post : List Node) :
    c.finish (.token ⟨.key, .str key⟩ :: .token ⟨.key, next⟩ :: post) = c.finish (.token ⟨.key, next⟩ :: post) := by
  rw [finish_cons, step_pair_key hs]
  show ({ c with pairs := c.pairs.setKey key } : Cursor).finish (.token ⟨.key, next⟩ :: post) = _
  rw [finish_cons, finish_cons, step_pair_key hs, step_pair_key (c := { c with pairs := c.pairs.setKey key }) hs]
  rfl

/-- A key at the end of the clause is reported. -/
theorem finish_of_pair_last {i : Identifier} (hs : c.scope.pairClause? = some i) (key : String) :
    c.finish [.token ⟨.key, .str key⟩] = .error (.malformed (.keyWithoutValue key)) := by
  rw [finish_cons, step_pair_key hs]
  show ({ c with pairs := c.pairs.setKey key } : Cursor).finish [] = _
  simp [finish_nil, endClause, hs, Pairs.setKey, Pairs.close, Attempt.result, bind, Except.bind]

/-- Every node of a clause that has been read has been taken there. -/
theorem exists_step_of_mem {nodes : List Node} (hn : ∀ n ∈ nodes, n.identifier? = none) (h : c.run nodes = .ok c') :
    ∀ n ∈ nodes, ∃ c₁ c₂ : Cursor, c₁.scope = c.scope ∧ (c₁.step n).result = .ok c₂ := by
  induction nodes generalizing c with
  | nil => simp
  | cons node rest ih =>
    rw [List.forall_mem_cons] at hn
    rw [run_cons, bind_eq_ok] at h
    obtain ⟨c₁, hstep, hrest⟩ := h
    have hscope := (step_frame hn.1 hstep).1
    rw [List.forall_mem_cons]
    exact ⟨⟨c, c₁, rfl, hstep⟩, hscope ▸ ih hn.2 hrest⟩

end Cursor

/-! ## Clauses -/

theorem Identifier.exists_pairClause {i : Identifier} (hi : i.collectsPairs = true) (q : Query) :
    ∃ j, (q.openClause i).scope.pairClause? = some j := Option.isSome_iff_exists.mp hi

namespace Segment

/-- **A loss in a clause is not seen**: the clause makes the same query, or fails with the same error. -/
theorem Drops.readClause_eq {i : Identifier} {nodes nodes' : List Node} (h : Drops i nodes nodes')
    (hn : ∀ n ∈ nodes, n.identifier? = none) (q : Query) : q.readClause ⟨i, nodes⟩ = q.readClause ⟨i, nodes'⟩ := by
  unfold Query.readClause
  cases h with
  | @key pre mid post key hmid hpost =>
    rw [List.forall_mem_append] at hn
    rw [Cursor.finish_append, Cursor.finish_append]
    refine bind_congr_ok fun c hc => ?_
    have hscope : c.scope = .conditions := Cursor.scope_run hn.1 hc
    have hsettled : c.draft.Settled := Cursor.settled_run rfl hn.1 (.inl rfl) hc
    exact Cursor.finish_of_key_lost hscope hsettled hmid hpost
  | @array _ _ a a' h =>
    have happly : ∀ (q : Query) markers outer, q.applyGroup markers outer a = q.applyGroup markers outer a' :=
      fun q markers outer => by simp only [Query.applyGroup, h.reduce_eq]
    rw [Cursor.finish_append, Cursor.finish_append]
    refine bind_congr_ok fun c _ => ?_
    rw [Cursor.finish_cons, Cursor.finish_cons, Cursor.step_array_congr happly]
  | @pair _ pre post key next hi =>
    rw [List.forall_mem_append] at hn
    obtain ⟨j, hj⟩ := Identifier.exists_pairClause hi q
    rw [Cursor.finish_append, Cursor.finish_append]
    refine bind_congr_ok fun c hc => ?_
    have hscope : c.scope.pairClause? = some j := by rw [Cursor.scope_run hn.1 hc, hj]
    exact Cursor.finish_of_pair_lost hscope key next post

end Segment

theorem Segment.Drops.keyCount_lt {i : Identifier} {nodes nodes' : List Node} (h : Segment.Drops i nodes nodes') :
    Group.keyCount nodes' < Group.keyCount nodes := by
  cases h with
  | @key pre mid post key _ _ =>
    have hwords : Group.keyCount (mid.filter Node.isWord) = 0 :=
      Group.keyCount_words fun n hn => (List.mem_filter.mp hn).2
    simp only [Group.keyCount_append, Group.keyCount_token_cons, hwords, if_true]
    omega
  | @array pre post a a' h =>
    have hlt := h.keyCount_lt
    simp only [Group.keyCount_append, Group.keyCount_group_cons]
    omega
  | pair _ =>
    simp only [Group.keyCount_append, Group.keyCount_token_cons, if_true]
    omega

/-- A key at the end of a clause of pairs is reported, unless something before it is. -/
theorem Query.readClause_of_key_last {i : Identifier} {pre : List Node} (hi : i.collectsPairs = true)
    (hn : ∀ n ∈ pre, n.identifier? = none) (key : String) (q : Query) :
    q.readClause ⟨i, pre ++ [.token ⟨.key, .str key⟩]⟩ =
      (q.openClause i).run pre >>= fun _ => .error (.malformed (.keyWithoutValue key)) := by
  obtain ⟨j, hj⟩ := Identifier.exists_pairClause hi q
  unfold Query.readClause
  rw [Cursor.finish_append]
  refine bind_congr_ok fun c hc => ?_
  have hscope : c.scope.pairClause? = some j := by rw [Cursor.scope_run hn hc, hj]
  exact Cursor.finish_of_pair_last hscope key

/-! ## Lost keys are those without a value -/

namespace Segment

variable {q q' : Query} {i : Identifier} {nodes nodes' : List Node}

theorem exists_step_of_readClause (hn : ∀ n ∈ nodes, n.identifier? = none) (h : q.readClause ⟨i, nodes⟩ = .ok q') :
    ∀ n ∈ nodes, ∃ c c' : Cursor, c.scope = .ofIdentifier i ∧ (c.step n).result = .ok c' := by
  unfold Query.readClause Cursor.finish at h
  obtain ⟨c, hrun, _⟩ := bind_eq_ok.mp h
  exact Cursor.exists_step_of_mem hn hrun

/-- The nodes of a filter clause that has been read. -/
theorem exists_conditionStep (hn : ∀ n ∈ nodes, n.identifier? = none) (h : q.readClause ⟨.where_, nodes⟩ = .ok q') :
    ∀ n ∈ nodes, ∃ c c', Cursor.ConditionStep c n c' := by
  intro n hmem
  obtain ⟨c, c', hs, hstep⟩ := exists_step_of_readClause hn h n hmem
  exact ⟨c, c', Cursor.step_conditions hs (hn n hmem) hstep⟩

theorem accepted_of_mem (hn : ∀ n ∈ nodes, n.identifier? = none) (h : q.readClause ⟨.where_, nodes⟩ = .ok q')
    {a : List Node} (ha : .group a ∈ nodes) : Group.Accepted a := by
  obtain ⟨c, c', hstep⟩ := exists_conditionStep hn h _ ha
  cases hstep with
  | array h =>
    unfold Query.applyGroup at h
    obtain ⟨member, hr, _⟩ := bind_eq_ok.mp h
    exact ⟨_, member, hr⟩

theorem isKey_or_isGroup {n : Node} (hb : n.isBetween = false) (hv : isValue n = false) :
    n.isKey = true ∨ isGroup n = true := by
  match n with
  | .group _ => exact .inr rfl
  | .token ⟨kind, value⟩ => cases kind <;> simp_all [Node.isBetween, isValue, Node.isKey]

/-- In a filter clause, a key without a value is lost. -/
theorem exists_drops_of_conditions (hn : ∀ n ∈ nodes, n.identifier? = none)
    (h : q.readClause ⟨.where_, nodes⟩ = .ok q') {a : List Node} (ha : a ∈ nodes :: Group.arrays nodes)
    (hnot : ¬ Group.Completed a) : ∃ nodes', Drops .where_ nodes nodes' := by
  rcases List.mem_cons.mp ha with rfl | ha
  · obtain ⟨pre, key, mid, post, rfl, hmid, hpost⟩ := Group.exists_wait_of_not_completed (fun _ h => h) hnot
    have hsteps := exists_conditionStep hn h
    obtain ⟨key, rfl⟩ : ∃ s, key = .str s := by
      obtain ⟨_, _, hstep⟩ := hsteps (.token ⟨.key, key⟩) (by simp)
      cases hstep with
      | key key => exact ⟨key, rfl⟩
    refine ⟨_, .key (fun n hmem => ?_) fun n hmem => isKey_or_isGroup (hpost n hmem).1 (hpost n hmem).2⟩
    obtain ⟨_, _, hstep⟩ := hsteps n (by simp [hmem])
    have hb := hmid n hmem
    cases hstep with
    | operator _ => exact .inl rfl
    | word _ => exact .inr rfl
    | _ => cases hb
  · obtain ⟨b, b', hmem, hdrops⟩ := Group.exists_drops_of_mem_arrays (fun b hb => accepted_of_mem hn h hb) ha hnot
    obtain ⟨pre, post, rfl⟩ := List.append_of_mem hmem
    exact ⟨_, .array hdrops⟩

/-- In a clause of pairs, a key without a value is lost. -/
theorem exists_drops_of_pairs (hi : i.collectsPairs = true) (hn : ∀ n ∈ nodes, n.identifier? = none)
    (h : q.readClause ⟨i, nodes⟩ = .ok q') {a : List Node} (ha : a ∈ nodes :: Group.arrays nodes)
    (hnot : ¬ Group.Completed a) : ∃ nodes', Drops i nodes nodes' := by
  have hkinds : ∀ n ∈ nodes, (∃ key, n = .token ⟨.key, .str key⟩) ∨ ∃ value, n = .token ⟨.value, value⟩ := by
    intro n hmem
    obtain ⟨j, hj⟩ := Option.isSome_iff_exists.mp hi
    obtain ⟨c, c', hs, hstep⟩ := exists_step_of_readClause hn h n hmem
    rcases Cursor.step_pairs (by rw [hs, hj]) (hn n hmem) hstep with ⟨key, hkey, _⟩ | ⟨value, _, hvalue, _⟩
    · exact .inl ⟨key, hkey⟩
    · exact .inr ⟨value, hvalue⟩
  have harrays : ∀ b, .group b ∉ nodes := by
    intro b hb
    simpa using hkinds _ hb
  rcases List.mem_cons.mp ha with rfl | ha
  · obtain ⟨pre, key, mid, post, rfl, hmid, hpost⟩ := Group.exists_wait_of_not_completed (fun _ h => h) hnot
    obtain rfl : mid = [] := List.eq_nil_iff_forall_not_mem.mpr fun n hmem => by
      have hb := hmid n hmem
      rcases hkinds n (by simp [hmem]) with ⟨_, rfl⟩ | ⟨_, rfl⟩ <;> cases hb
    obtain ⟨key, rfl⟩ : ∃ s, key = .str s := by simpa using hkinds (.token ⟨.key, key⟩) (by simp)
    cases post with
    | nil =>
      -- A key at the end of the clause would have been reported.
      rw [List.forall_mem_append] at hn
      rw [List.nil_append, Query.readClause_of_key_last hi hn.1] at h
      obtain ⟨_, _, h⟩ := bind_eq_ok.mp h
      cases h
    | cons n post =>
      rcases hkinds n (by simp) with ⟨next, rfl⟩ | ⟨value, rfl⟩
      · exact ⟨_, .pair hi⟩
      · have hvalue := (hpost _ rfl).2
        cases hvalue
  · obtain ⟨b, _, hb, _⟩ := Group.exists_drops_of_mem_arrays (fun b hb => absurd hb (harrays b)) ha hnot
    exact absurd hb (harrays b)

/-- Where something is lost in a clause that has been read, there is a key without a value. -/
theorem Drops.exists_not_completed (hdrops : Drops i nodes nodes') (hn : ∀ n ∈ nodes, n.identifier? = none)
    (h : q.readClause ⟨i, nodes⟩ = .ok q') : ∃ a ∈ nodes :: Group.arrays nodes, ¬ Group.Completed a := by
  cases hdrops with
  | @key pre mid post key hmid hpost =>
    refine ⟨_, List.mem_cons_self, Group.not_completed (fun n hmem => ?_) fun n hmem => ?_⟩
    · match n, hmid n hmem with
      | .token ⟨.operator, .str _⟩, _ => rfl
      | .token ⟨.condition, .str _⟩, _ => rfl
    · rcases hpost n hmem with hkey | hgroup
      · obtain ⟨key, rfl⟩ := Node.eq_of_isKey hkey
        exact ⟨rfl, rfl⟩
      · obtain ⟨nodes, rfl⟩ := Node.eq_of_isGroup hgroup
        exact ⟨rfl, rfl⟩
  | @array pre post a a' hdrops =>
    have hmem : Node.group a ∈ pre ++ .group a :: post := by simp
    obtain ⟨b, hb, hnot⟩ := hdrops.exists_not_completed (accepted_of_mem hn h hmem)
    exact ⟨b, List.mem_cons_of_mem _ (Group.mem_arrays_of_mem hmem hb), hnot⟩
  | @pair _ pre post key next hi =>
    refine ⟨_, List.mem_cons_self, ?_⟩
    rw [← List.nil_append (_ :: post)]
    exact Group.not_completed (by simp) (by simp [Node.isBetween, isValue])

theorem Drops.takesKeys (h : Drops i nodes nodes') : i.takesKeys = true := by
  cases h with
  | key _ _ => rfl
  | array _ => rfl
  | pair hi => exact Identifier.takesKeys_iff.mpr (.inr hi)

/-- **The keys that a clause loses** are those that no value completes. -/
theorem exists_drops_iff (hn : ∀ n ∈ nodes, n.identifier? = none) (h : q.readClause ⟨i, nodes⟩ = .ok q') :
    (∃ nodes', Drops i nodes nodes') ↔
      i.takesKeys = true ∧ ∃ a ∈ nodes :: Group.arrays nodes, ¬ Group.Completed a := by
  constructor
  · rintro ⟨nodes', hdrops⟩
    exact ⟨hdrops.takesKeys, hdrops.exists_not_completed hn h⟩
  · rintro ⟨hi, a, ha, hnot⟩
    rcases Identifier.takesKeys_iff.mp hi with rfl | hi
    · exact exists_drops_of_conditions hn h ha hnot
    · exact exists_drops_of_pairs hi hn h ha hnot

end Segment

end DocQuery
