import DocQuery.Proofs.Grouping.Leaves
import Mathlib.Data.List.Induction
import Mathlib.Data.List.TakeWhile

/-!
# Keys without a value in arrays

A key of an array waits for its value over operators and words (`Node.keepsWaiting`), up to another key, an array, a
`NOT` or the end. If no value has come by then, the key is lost, with its operators and the markers around it. Nothing
reports that: the array reduces as if they were not there (`Group.Drops.reduce_eq`).

In an array that reduces, such losses are there where a key, at any depth, is not completed by a value
(`Group.exists_drops_of_mem_arrays`), and nowhere else (`Group.Drops.exists_not_completed`).
-/

namespace DocQuery

/-! ## Waiting for a value -/

namespace Node

def isWord : Node → Bool
  | .token ⟨.condition, .str _⟩ => true
  | _ => false

/-- A word that marks nothing: a combinator, or a word without meaning. -/
def combines : Node → Bool
  | .token ⟨.condition, .str word⟩ =>
    match Marker.ofCondition? word with
    | some .not => false
    | some .inList => false
    | _ => true
  | _ => false

theorem isWord_of_combines {n : Node} (h : n.combines = true) : n.isWord = true := by
  match n, h with
  | .token ⟨.condition, .str _⟩, _ => rfl

/-- The nodes of an array after which a key still waits for its value. -/
def keepsWaiting : Node → Bool
  | .token ⟨.operator, .str _⟩ => true
  | .token ⟨.condition, .str word⟩ => Marker.ofCondition? word != some .not
  | _ => false

/-- Neither a key nor an array nor a value. -/
def isBetween : Node → Bool
  | .token ⟨kind, _⟩ => kind != .key && kind != .value
  | .group _ => false

theorem isBetween_of_keepsWaiting (n : Node) (h : n.keepsWaiting = true) : n.isBetween = true := by
  match n, h with
  | .token ⟨.operator, .str _⟩, _ => rfl
  | .token ⟨.condition, .str _⟩, _ => rfl

/-- The nodes of an array at which a key that waits is given up. -/
def endsWait : Node → Bool
  | .token ⟨.key, _⟩ => true
  | .group _ => true
  | .token ⟨.condition, .str word⟩ => Marker.ofCondition? word == some .not
  | _ => false

end Node

/-- One loss in an array: a key that gets no value, with its operators and the markers around it. Words that combine
stay. -/
inductive Group.Drops : List Node → List Node → Prop
  | key {pre words mid post : List Node} {key : String} (hpre : ∀ n ∈ pre.getLast?, n.isWord = false)
      (hwords : ∀ n ∈ words, n.isWord = true) (hmid : ∀ n ∈ mid, n.keepsWaiting = true)
      (hpost : ∀ n ∈ post.head?, n.endsWait = true) :
      Drops (pre ++ ((words ++ .token ⟨.key, .str key⟩ :: mid) ++ post))
        (pre ++ ((words ++ mid).filter Node.combines ++ post))
  | array {pre post a a' : List Node} (h : Drops a a') : Drops (pre ++ .group a :: post) (pre ++ .group a' :: post)

/-- Nothing waits in the draft, or a key does. -/
def Draft.Settled (d : Draft) : Prop := d = {} ∨ d.key.isSome = true

theorem Draft.Settled.setKey {d : Draft} (h : d.Settled) (key : String) : d.setKey key = { key := some key } := by
  rcases h with rfl | h
  · rfl
  · simp [Draft.setKey, Draft.isPending_eq_false_iff.mpr h]

theorem Draft.Settled.pendingMarkers {d : Draft} (h : d.Settled) : d.pendingMarkers = [] := by
  rcases h with rfl | h
  · rfl
  · simp [Draft.pendingMarkers, Draft.isPending_eq_false_iff.mpr h]

namespace Grouping

variable {conjoined : Bool} {g : Gathered}

theorem gatherNode_word (conjoined : Bool) (g : Gathered) (word : String) :
    gatherNode conjoined g (.token ⟨.condition, .str word⟩) = .ok (g.condition word) := rfl

/-! ## The lost part of a group -/

theorem lastCombinator_append (start : Option Combinator) (xs ys : List Node) :
    lastCombinator start (xs ++ ys) = lastCombinator (lastCombinator start xs) ys := by
  simp only [lastCombinator, List.filterMap_append, List.getLast?_append, Option.or_assoc]

/-- Only words that combine name a combinator. -/
theorem lastCombinator_filter (start : Option Combinator) (nodes : List Node) :
    lastCombinator start (nodes.filter Node.combines) = lastCombinator start nodes := by
  have hcombines : ∀ n : Node, n.combines = false → n.combinator? = none := by
    intro n hn
    unfold Node.combines at hn
    split at hn
    · split at hn
      · rename_i hm
        exact Combinator.ofCondition?_of_marker (by simp) hm
      · rename_i hm
        exact Combinator.ofCondition?_of_marker (by simp) hm
      · cases hn
    · rename_i hne
      unfold Node.combinator?
      split
      · exact absurd rfl (hne _)
      · rfl
  have hfilter : (nodes.filter Node.combines).filterMap Node.combinator? = nodes.filterMap Node.combinator? := by
    induction nodes with
    | nil => rfl
    | cons n rest ih =>
      cases hn : n.combines with
      | true => simp [hn, ih, List.filterMap_cons]
      | false => simp [hn, ih, hcombines n hn]
  rw [lastCombinator, hfilter, lastCombinator]

/-- Words change the draft and the combinator. -/
theorem gather_words {words : List Node} (h : ∀ n ∈ words, n.isWord = true) (conjoined : Bool) (g : Gathered) :
    ∃ d, gather conjoined g words = .ok { g with draft := d, combinator := lastCombinator g.combinator words } := by
  induction words generalizing g with
  | nil => exact ⟨g.draft, rfl⟩
  | cons n rest ih =>
    rw [List.forall_mem_cons] at h
    match n, h.1 with
    | .token ⟨.condition, .str word⟩, _ =>
      obtain ⟨d, hd⟩ := ih h.2 (g.condition word)
      refine ⟨d, ?_⟩
      rw [gather, gatherNode_word]
      refine hd.trans ?_
      rw [condition_eq, ← lastCombinator_cons]
      rfl

/-- A word other than `NOT` keeps the key of the draft. -/
theorem key_condition {word : String} (h : Marker.ofCondition? word ≠ some .not) (g : Gathered) :
    (g.condition word).draft.key = g.draft.key := by
  unfold Gathered.condition
  split
  · rename_i hm
    exact absurd hm h
  · rfl
  · rfl

theorem gatherNode_operator {operator : String} (conjoined : Bool) (hd : g.draft.key.isSome = true) :
    gatherNode conjoined g (.token ⟨.operator, .str operator⟩) =
      .ok { g with draft := { g.draft with operator := some operator, done := false } } := by
  have hset : g.draft.setOperator operator = .ok { g.draft with operator := some operator, done := false } :=
    Draft.setOperator_eq_ok.mpr ⟨hd, rfl⟩
  simp only [gatherNode, Gathered.token]
  exact bind_eq_ok.mpr ⟨operator, rfl, bind_eq_ok.mpr ⟨_, hset, rfl⟩⟩

/-- A key that waits still waits, and only the combinator is seen. -/
theorem gather_waiting {mid : List Node} (h : ∀ n ∈ mid, n.keepsWaiting = true) (conjoined : Bool) {g : Gathered}
    (hd : g.draft.key.isSome = true) :
    ∃ d : Draft, d.key.isSome = true ∧
      gather conjoined g mid = .ok { g with draft := d, combinator := lastCombinator g.combinator mid } := by
  induction mid generalizing g with
  | nil => exact ⟨g.draft, hd, rfl⟩
  | cons n rest ih =>
    rw [List.forall_mem_cons] at h
    match n, h.1 with
    | .token ⟨.operator, .str operator⟩, _ =>
      let d₀ : Draft := { g.draft with operator := some operator, done := false }
      obtain ⟨d, hkey, hgather⟩ := ih (g := { g with draft := d₀ }) h.2 hd
      refine ⟨d, hkey, ?_⟩
      rw [gather, gatherNode_operator conjoined hd]
      exact hgather
    | .token ⟨.condition, .str word⟩, hword =>
      have hkey := key_condition (by simpa [Node.keepsWaiting] using hword) g
      obtain ⟨d, hdkey, hgather⟩ := ih (g := g.condition word) h.2 (by rw [hkey]; exact hd)
      refine ⟨d, hdkey, ?_⟩
      rw [gather, gatherNode_word]
      refine hgather.trans ?_
      rw [condition_eq, ← lastCombinator_cons]
      rfl

/-- Words that combine leave the draft alone. -/
theorem gather_combining {words : List Node} (h : ∀ n ∈ words, n.combines = true) (conjoined : Bool) (g : Gathered) :
    gather conjoined g words = .ok { g with combinator := lastCombinator g.combinator words } := by
  induction words generalizing g with
  | nil => rfl
  | cons n rest ih =>
    rw [List.forall_mem_cons] at h
    match n, h.1 with
    | .token ⟨.condition, .str word⟩, hword =>
      have hcondition : g.condition word = { g with combinator := (Combinator.ofCondition? word).or g.combinator } := by
        unfold Gathered.condition
        split
        · rename_i hm
          simp [Node.combines, hm] at hword
        · rename_i hm
          simp [Node.combines, hm] at hword
        · rfl
      rw [gather, gatherNode_word, hcondition]
      refine (ih h.2 _).trans ?_
      rw [← lastCombinator_cons]
      rfl

/-- The lost part leaves a key in the draft, and the words in it combine. -/
theorem gather_lost {words mid : List Node} (hwords : ∀ n ∈ words, n.isWord = true)
    (hmid : ∀ n ∈ mid, n.keepsWaiting = true) (key : String) (conjoined : Bool) (g : Gathered) :
    ∃ d : Draft, d.key.isSome = true ∧ gather conjoined g (words ++ .token ⟨.key, .str key⟩ :: mid) =
      .ok { g with draft := d, combinator := lastCombinator g.combinator (words ++ mid) } := by
  obtain ⟨d₁, h₁⟩ := gather_words hwords conjoined g
  obtain ⟨d₂, hd₂, h₂⟩ := gather_waiting hmid conjoined
    (g := { g with draft := d₁.setKey key, combinator := lastCombinator g.combinator words })
    (Draft.isSome_key_setKey d₁ key)
  refine ⟨d₂, hd₂, ?_⟩
  rw [gather_append, h₁, lastCombinator_append]
  exact h₂

/-! ## After the loss -/

/-- What counts of a group in the end. -/
def Gathered.forget (g : Gathered) : Gathered := { g with draft := {} }

/-- Where a wait ends, it does not matter which key waited. -/
theorem gatherNode_congr {g g' : Gathered} {node : Node} (hforget : g.forget = g'.forget) (hd : g.draft.Settled)
    (hd' : g'.draft.Settled) (hnode : node.endsWait = true) (conjoined : Bool) :
    gatherNode conjoined g node = gatherNode conjoined g' node := by
  obtain ⟨d, combinator, members⟩ := g
  obtain ⟨d', combinator', members'⟩ := g'
  obtain ⟨rfl, rfl⟩ : combinator = combinator' ∧ members = members' := by simpa [Gathered.forget] using hforget
  match node, hnode with
  | .group nodes, _ => rw [gatherNode_group, gatherNode_group, hd.pendingMarkers, hd'.pendingMarkers]
  | .token ⟨.key, value⟩, _ =>
    simp only [gatherNode, Gathered.token]
    refine bind_congr_ok fun key _ => ?_
    rw [hd.setKey, hd'.setKey]
  | .token ⟨.condition, .str word⟩, hword =>
    have hm : Marker.ofCondition? word = some .not := by simpa [Node.endsWait] using hword
    rw [gatherNode_word, gatherNode_word, Gathered.condition, Gathered.condition, hm]

theorem gather_congr (g g' : Gathered) {post : List Node} (hforget : g.forget = g'.forget) (hd : g.draft.Settled)
    (hd' : g'.draft.Settled) (hpost : ∀ n ∈ post.head?, n.endsWait = true) (conjoined : Bool) :
    (gather conjoined g post).map Gathered.forget = (gather conjoined g' post).map Gathered.forget := by
  cases post with
  | nil => simpa [gather, Except.map] using hforget
  | cons node rest =>
    rw [gather, gather, gatherNode_congr hforget hd hd' (hpost node rfl)]

/-- After a node that is no word, the draft holds a key or nothing at all. -/
theorem settled_of_gather {pre : List Node} {g g' : Gathered} (hpre : ∀ n ∈ pre.getLast?, n.isWord = false)
    (hg : g.draft.Settled) (h : gather conjoined g pre = .ok g') : g'.draft.Settled := by
  rcases List.eq_nil_or_concat pre with rfl | ⟨before, node, rfl⟩
  · cases h
    exact hg
  · rw [List.concat_eq_append, gather_append, bind_eq_ok] at h
    obtain ⟨g₁, _, h⟩ := h
    rw [gather, bind_eq_ok] at h
    obtain ⟨g₂, hnode, h⟩ := h
    cases h
    have hword : node.isWord = false := hpre node (by simp)
    obtain ⟨_, hgives, rfl⟩ := gatherNode_eq_ok hnode
    cases hgives with
    | array _ => exact .inl rfl
    | clause value hkey _ => exact .inr (by simp [Draft.after, hkey])
    | token payload hkind hoperator =>
      rcases hkind with rfl | rfl | rfl
      · exact .inr (Draft.isSome_key_setKey _ _)
      · exact .inr (hoperator rfl)
      · simp [Node.isWord] at hword

theorem isConjoined_congr (pre post : List Node) {lost kept : List Node}
    (hlost : ∀ n ∈ lost, isValue n = false ∧ isGroup n = false)
    (hkept : ∀ n ∈ kept, isValue n = false ∧ isGroup n = false) :
    isConjoined (pre ++ (lost ++ post)) = isConjoined (pre ++ (kept ++ post)) := by
  have hnone : ∀ nodes : List Node, (∀ n ∈ nodes, isValue n = false ∧ isGroup n = false) →
      nodes.countP isValue = 0 ∧ nodes.any isGroup = false := fun nodes h =>
    ⟨List.countP_eq_zero.mpr fun n hn => by simp [(h n hn).1], List.any_eq_false.mpr fun n hn => by simp [(h n hn).2]⟩
  simp [isConjoined, List.countP_append, List.any_append, hnone lost hlost, hnone kept hkept]

theorem reduce_eq (markers : List Marker) (nodes : List Node) :
    reduce markers nodes = (gather (isConjoined nodes) {} nodes).map Gathered.forget >>= fun g => g.close markers := by
  rw [reduce]
  cases gather (isConjoined nodes) {} nodes <;> rfl

end Grouping

namespace Group

open Grouping

theorem not_value_of_combines {n : Node} (h : n.combines = true) : isValue n = false ∧ isGroup n = false := by
  match n, h with
  | .token ⟨.condition, .str _⟩, _ => exact ⟨rfl, rfl⟩

/-- A key without a value is no value, and neither is what is lost with it. -/
theorem not_value_of_mem_lost {words mid : List Node} (hwords : ∀ n ∈ words, n.isWord = true)
    (hmid : ∀ n ∈ mid, n.keepsWaiting = true) (key : String) :
    ∀ n ∈ words ++ Node.token ⟨.key, .str key⟩ :: mid, isValue n = false ∧ isGroup n = false := by
  rw [List.forall_mem_append, List.forall_mem_cons]
  refine ⟨fun n hn => ?_, ⟨rfl, rfl⟩, fun n hn => ?_⟩
  · match n, hwords n hn with
    | .token ⟨.condition, .str _⟩, _ => exact ⟨rfl, rfl⟩
  · match n, hmid n hn with
    | .token ⟨.operator, .str _⟩, _ => exact ⟨rfl, rfl⟩
    | .token ⟨.condition, .str _⟩, _ => exact ⟨rfl, rfl⟩

/-- **A loss in an array is not seen**: it reduces to the same expression, or fails with the same error. -/
theorem Drops.reduce_eq {a a' : List Node} (h : Drops a a') (markers : List Marker) :
    reduce markers a = reduce markers a' := by
  induction h generalizing markers with
  | @key pre words mid post key hpre hwords hmid hpost =>
    have hcombines : ∀ n ∈ (words ++ mid).filter Node.combines, n.combines = true :=
      fun n hn => (List.mem_filter.mp hn).2
    have hconjoined := isConjoined_congr pre post (not_value_of_mem_lost hwords hmid key)
      fun n hn => not_value_of_combines (hcombines n hn)
    rw [Grouping.reduce_eq, Grouping.reduce_eq, hconjoined, gather_append, gather_append, map_bind, map_bind]
    refine congrArg (· >>= _) (bind_congr_ok fun g hg => ?_)
    generalize isConjoined _ = conjoined at hg ⊢
    -- Both continue with the same members and the same combinator, and only the draft tells them apart.
    obtain ⟨d, hd, hlost⟩ := gather_lost hwords hmid key conjoined g
    rw [gather_append conjoined g (words ++ _), hlost, gather_append conjoined g (List.filter _ _),
      gather_combining hcombines, lastCombinator_filter]
    have hd' := settled_of_gather hpre (.inl rfl) hg
    let combinator := lastCombinator g.combinator (words ++ mid)
    exact gather_congr ⟨d, combinator, g.members⟩ ⟨g.draft, combinator, g.members⟩ rfl (.inr hd) hd' hpost conjoined
  | @array pre post a a' _ ih => exact reduce_congr_array ih pre post markers

/-! ## Each loss takes a key away -/

/-- The number of keys among some nodes, at any depth. -/
def keyCount (nodes : List Node) : Nat := (Group.tokens nodes).countP (·.kind == .key)

@[simp] theorem keyCount_append (xs ys : List Node) : keyCount (xs ++ ys) = keyCount xs + keyCount ys := by
  simp only [keyCount, Group.tokens_append, List.countP_append]

@[simp] theorem keyCount_token_cons (t : Token) (rest : List Node) :
    keyCount (.token t :: rest) = keyCount rest + if t.kind = .key then 1 else 0 := by
  simp [keyCount, Group.tokens, Node.tokens, List.countP_cons]

@[simp] theorem keyCount_group_cons (nodes rest : List Node) :
    keyCount (.group nodes :: rest) = keyCount nodes + keyCount rest := by
  simp [keyCount, Group.tokens, Node.tokens]

theorem keyCount_words {words : List Node} (h : ∀ n ∈ words, n.isWord = true) : keyCount words = 0 := by
  induction words with
  | nil => rfl
  | cons n rest ih =>
    rw [List.forall_mem_cons] at h
    match n, h.1 with
    | .token ⟨.condition, .str _⟩, _ => simp [ih h.2]

theorem Drops.keyCount_lt {a a' : List Node} (h : Drops a a') : keyCount a' < keyCount a := by
  induction h with
  | @key pre words mid post key _ _ _ _ =>
    have hkept : keyCount ((words ++ mid).filter Node.combines) = 0 :=
      keyCount_words fun n hn => Node.isWord_of_combines (List.mem_filter.mp hn).2
    simp only [keyCount_append, keyCount_token_cons, hkept, if_true]
    omega
  | @array pre post a a' _ ih =>
    simp only [keyCount_append, keyCount_group_cons]
    omega

/-! ## Completed keys -/

/-- Every key among the nodes is followed by a value, before the next key, the next array and the end. -/
def Completed (nodes : List Node) : Prop :=
  ∀ pre key post, nodes = pre ++ .token ⟨.key, key⟩ :: post →
    ∃ mid value rest, post = mid ++ .token ⟨.value, value⟩ :: rest ∧ ∀ n ∈ mid, n.isBetween = true

/-- A key after which another key, an array or the end comes first. -/
theorem not_completed {pre mid post : List Node} {key : Json} (hmid : ∀ n ∈ mid, n.isBetween = true)
    (hpost : ∀ n ∈ post.head?, n.isBetween = false ∧ isValue n = false) :
    ¬ Completed (pre ++ .token ⟨.key, key⟩ :: (mid ++ post)) := by
  intro h
  obtain ⟨mid', value, rest, heq, hmid'⟩ := h pre key (mid ++ post) rfl
  -- What follows the nodes in between is the value on one side, and `post` on the other.
  have hdrop := congrArg (List.dropWhile Node.isBetween) heq
  have hvalue : (Node.token ⟨.value, value⟩).isBetween = false := rfl
  rw [List.dropWhile_append_of_pos hmid, List.dropWhile_append_of_pos hmid',
    List.dropWhile_cons_of_neg (by simp [hvalue])] at hdrop
  cases post with
  | nil => simp at hdrop
  | cons n post =>
    obtain ⟨hn, hv⟩ := hpost n rfl
    rw [List.dropWhile_cons_of_neg (by simp [hn])] at hdrop
    cases hdrop
    simp [isValue] at hv

/-- The first node after a key without a value over which it does not wait. -/
theorem exists_wait_of_not_completed {waits : Node → Bool} (hwaits : ∀ n, waits n = true → n.isBetween = true)
    {nodes : List Node} (h : ¬ Completed nodes) :
    ∃ pre key mid post, nodes = pre ++ .token ⟨.key, key⟩ :: (mid ++ post) ∧ (∀ n ∈ mid, waits n = true) ∧
      ∀ n ∈ post.head?, waits n = false ∧ isValue n = false := by
  simp only [Completed, not_forall] at h
  obtain ⟨pre, key, post, rfl, h⟩ := h
  have hsplit : post.takeWhile waits ++ post.dropWhile waits = post := List.takeWhile_append_dropWhile
  have hmid : ∀ n ∈ post.takeWhile waits, waits n = true := fun n hn => List.mem_takeWhile_imp hn
  refine ⟨pre, key, post.takeWhile waits, post.dropWhile waits, by rw [hsplit], hmid, fun n hn => ?_⟩
  have hn' : (post.dropWhile waits).head? = some n := hn
  obtain ⟨rest, hrest⟩ := List.head?_eq_some_iff.mp hn'
  refine ⟨?_, ?_⟩
  · have hnot := List.head?_dropWhile_not waits post
    rwa [hn'] at hnot
  · refine Bool.eq_false_iff.mpr fun hvalue => ?_
    match n, hvalue with
    | .token ⟨.value, value⟩, _ =>
      exact h ⟨_, value, rest, by rw [← hrest, hsplit], fun n hn => hwaits n (hmid n hn)⟩

/-! ## Arrays that reduce -/

/-- The words at the end of some nodes. -/
theorem exists_split_words (nodes : List Node) :
    ∃ pre words, nodes = pre ++ words ∧ (∀ n ∈ words, n.isWord = true) ∧ ∀ n ∈ pre.getLast?, n.isWord = false := by
  induction nodes using List.reverseRecOn with
  | nil => exact ⟨[], [], rfl, by simp, by simp⟩
  | append_singleton nodes n ih =>
    cases hn : n.isWord with
    | false => exact ⟨nodes ++ [n], [], by simp, by simp, by simp [hn]⟩
    | true =>
      obtain ⟨pre, words, rfl, hwords, hpre⟩ := ih
      refine ⟨pre, words ++ [n], by simp, ?_, hpre⟩
      rw [List.forall_mem_append]
      exact ⟨hwords, by simp [hn]⟩

/-- A node of a group that has been read continues a wait, ends it, or is a value. -/
theorem endsWait_of_gives {conjoined : Bool} {d : Draft} {n : Node} {new : List Expr} (hg : Gives conjoined d n new)
    (hw : n.keepsWaiting = false) (hv : isValue n = false) : n.endsWait = true := by
  cases hg with
  | array _ => rfl
  | clause value _ _ => simp [isValue] at hv
  | token payload hkind _ =>
    rcases hkind with rfl | rfl | rfl
    · rfl
    · simp [Node.keepsWaiting] at hw
    · simpa [Node.keepsWaiting, Node.endsWait] using hw

/-- Every node of a group that reduces has given something. -/
theorem exists_gives_of_mem {conjoined : Bool} {d : Draft} {nodes : List Node} {news : List Expr}
    (h : GivesAll conjoined d nodes news) : ∀ n ∈ nodes, ∃ d new, Gives conjoined d n new := by
  induction h with
  | nil _ => simp
  | cons h _ ih => exact List.forall_mem_cons.mpr ⟨⟨_, _, h⟩, ih⟩

/-- A run of nodes in two parts. -/
theorem exists_givesAll_of_append {conjoined : Bool} {xs ys : List Node} {d : Draft} {news : List Expr}
    (h : GivesAll conjoined d (xs ++ ys) news) :
    ∃ news₁ news₂, GivesAll conjoined d xs news₁ ∧ GivesAll conjoined (xs.foldl Draft.after d) ys news₂ := by
  induction xs generalizing d news with
  | nil => exact ⟨[], news, .nil d, h⟩
  | cons x xs ih =>
    cases h with
    | cons hg hs =>
      obtain ⟨news₁, news₂, h₁, h₂⟩ := ih hs
      exact ⟨_, news₂, .cons hg h₁, h₂⟩

/-- Before a key has been read, no value comes. -/
theorem not_value_of_pending {conjoined : Bool} {d : Draft} {nodes : List Node} {news : List Expr}
    (h : GivesAll conjoined d nodes news) (hd : d.key = none) :
    ∀ n ∈ (nodes.dropWhile Node.isBetween).head?, n.isBetween = false ∧ isValue n = false := by
  induction h with
  | nil _ => simp
  | @cons d node rest new news h _ ih =>
    cases h with
    | clause value hkey _ => simp [hd] at hkey
    | array _ => simp [Node.isBetween, isValue]
    | token payload hkind hoperator =>
      rcases hkind with rfl | rfl | rfl
      · simp [Node.isBetween, isValue]
      · simp [hd] at hoperator
      · rw [List.dropWhile_cons_of_pos rfl]
        refine ih ?_
        simp only [Draft.after]
        split
        · rfl
        · exact hd
        · exact hd

/-- An array that reduces. -/
def Accepted (nodes : List Node) : Prop := ∃ markers member, reduce markers nodes = .ok member

theorem Accepted.exists_givesAll {nodes : List Node} (h : Accepted nodes) :
    ∃ conjoined d news, GivesAll conjoined d nodes news := by
  obtain ⟨markers, member, h⟩ := h
  obtain ⟨news, hall, _⟩ := reduce_eq_ok h
  exact ⟨_, _, news, hall⟩

theorem Accepted.of_mem {nodes a : List Node} (h : Accepted nodes) (ha : .group a ∈ nodes) : Accepted a := by
  obtain ⟨conjoined, d, news, hall⟩ := h.exists_givesAll
  obtain ⟨_, _, hg⟩ := exists_gives_of_mem hall _ ha
  cases hg with
  | array h => exact ⟨_, _, h⟩

/-! ## Lost keys are those without a value -/

/-- In an array that reduces, a key without a value is lost. -/
theorem exists_drops_of_not_completed {nodes : List Node} (ha : Accepted nodes) (h : ¬ Completed nodes) :
    ∃ nodes', Drops nodes nodes' := by
  obtain ⟨pre, key, mid, post, rfl, hmid, hpost⟩ := exists_wait_of_not_completed Node.isBetween_of_keepsWaiting h
  obtain ⟨conjoined, d, news, hall⟩ := ha.exists_givesAll
  have hgives := exists_gives_of_mem hall
  obtain ⟨pre, words, rfl, hwords, hpre⟩ := exists_split_words pre
  obtain ⟨key, rfl⟩ : ∃ s, key = .str s := by
    obtain ⟨_, _, hg⟩ := hgives (.token ⟨.key, key⟩) (by simp)
    cases hg with
    | token payload _ _ => exact ⟨payload, rfl⟩
  have hends : ∀ n ∈ post.head?, n.endsWait = true := fun n hn => by
    have hn' : n ∈ post := List.mem_of_mem_head? hn
    obtain ⟨_, _, hg⟩ := hgives n (by simp [hn'])
    exact endsWait_of_gives hg (hpost n hn).1 (hpost n hn).2
  have hshape : pre ++ words ++ .token ⟨.key, .str key⟩ :: (mid ++ post) =
      pre ++ ((words ++ .token ⟨.key, .str key⟩ :: mid) ++ post) := by simp
  rw [hshape]
  exact ⟨_, .key hpre hwords hmid hends⟩

mutual

theorem exists_drops_of_mem_arrays_node : ∀ {node : Node} {a : List Node}, (∀ b, node = .group b → Accepted b) →
    a ∈ node.arrays → ¬ Completed a → ∃ b b', node = .group b ∧ Drops b b'
  | .group b, a, hb, ha, h => by
    rcases List.mem_cons.mp ha with rfl | ha
    · obtain ⟨a', hdrops⟩ := exists_drops_of_not_completed (hb a rfl) h
      exact ⟨a, a', rfl, hdrops⟩
    · obtain ⟨c, c', hc, hdrops⟩ := exists_drops_of_mem_arrays (fun c hc => (hb b rfl).of_mem hc) ha h
      obtain ⟨pre, post, rfl⟩ := List.append_of_mem hc
      exact ⟨_, _, rfl, .array hdrops⟩

/-- A key without a value at any depth is lost there. -/
theorem exists_drops_of_mem_arrays : ∀ {nodes a : List Node}, (∀ b, .group b ∈ nodes → Accepted b) →
    a ∈ Group.arrays nodes → ¬ Completed a → ∃ b b', .group b ∈ nodes ∧ Drops b b'
  | node :: rest, a, hb, ha, h => by
    rcases List.mem_append.mp ha with ha | ha
    · obtain ⟨b, b', rfl, hdrops⟩ := exists_drops_of_mem_arrays_node (fun b hn => hb b (by simp [hn])) ha h
      exact ⟨b, b', List.mem_cons_self, hdrops⟩
    · obtain ⟨b, b', hmem, hdrops⟩ := exists_drops_of_mem_arrays (fun b hn => hb b (List.mem_cons_of_mem _ hn)) ha h
      exact ⟨b, b', List.mem_cons_of_mem _ hmem, hdrops⟩

end

theorem mem_arrays_of_mem {nodes a b : List Node} (ha : .group a ∈ nodes) (hb : b ∈ a :: Group.arrays a) :
    b ∈ Group.arrays nodes := by
  induction nodes with
  | nil => cases ha
  | cons node rest ih =>
    rw [Group.arrays, List.mem_append]
    rcases List.mem_cons.mp ha with rfl | ha
    · exact .inl hb
    · exact .inr (ih ha)

/-- `NOT` gives up the key before it, so that no value comes before another key. -/
theorem not_completed_of_not {pre mid post : List Node} {key : Json} {word : String}
    (hword : Marker.ofCondition? word = some .not) (hmid : ∀ n ∈ mid, n.isBetween = true)
    (ha : Accepted (pre ++ .token ⟨.key, key⟩ :: (mid ++ .token ⟨.condition, .str word⟩ :: post))) :
    ¬ Completed (pre ++ .token ⟨.key, key⟩ :: (mid ++ .token ⟨.condition, .str word⟩ :: post)) := by
  obtain ⟨conjoined, d, news, hall⟩ := ha.exists_givesAll
  rw [← List.cons_append, ← List.append_assoc] at hall
  obtain ⟨_, _, _, hall⟩ := exists_givesAll_of_append hall
  cases hall with
  | cons _ hall =>
    have hvalue := not_value_of_pending hall (by simp [Draft.after, hword, Draft.withMarkers])
    have hnodes : mid ++ .token ⟨.condition, .str word⟩ :: post =
        (mid ++ .token ⟨.condition, .str word⟩ :: post.takeWhile Node.isBetween) ++ post.dropWhile Node.isBetween := by
      simp
    rw [hnodes]
    refine not_completed ?_ hvalue
    rw [List.forall_mem_append, List.forall_mem_cons]
    exact ⟨hmid, rfl, fun n hn => List.mem_takeWhile_imp hn⟩

/-- Where something is lost in an array that reduces, there is a key without a value. -/
theorem Drops.exists_not_completed {nodes nodes' : List Node} (h : Drops nodes nodes') (ha : Accepted nodes) :
    ∃ a ∈ nodes :: Group.arrays nodes, ¬ Completed a := by
  induction h with
  | @array pre post a a' _ ih =>
    have hmem : Node.group a ∈ pre ++ .group a :: post := by simp
    obtain ⟨b, hb, hnot⟩ := ih (ha.of_mem hmem)
    exact ⟨b, List.mem_cons_of_mem _ (mem_arrays_of_mem hmem hb), hnot⟩
  | @key pre words mid post key _ _ hmid hpost =>
    refine ⟨_, List.mem_cons_self, ?_⟩
    have hmid' : ∀ n ∈ mid, n.isBetween = true := fun n hn => Node.isBetween_of_keepsWaiting n (hmid n hn)
    have hshape : pre ++ ((words ++ .token ⟨.key, .str key⟩ :: mid) ++ post) =
        pre ++ words ++ .token ⟨.key, .str key⟩ :: (mid ++ post) := by simp
    rw [hshape] at ha ⊢
    cases post with
    | nil => exact not_completed hmid' (by simp)
    | cons n post =>
      match n, hpost n rfl, ha with
      | .group _, _, _ => exact not_completed hmid' (by simp [Node.isBetween, isValue])
      | .token ⟨.key, _⟩, _, _ => exact not_completed hmid' (by simp [Node.isBetween, isValue])
      | .token ⟨.condition, .str word⟩, hends, ha =>
        exact not_completed_of_not (by simpa [Node.endsWait] using hends) hmid' ha

end Group

end DocQuery
