import DocQuery.Proofs.Connectives
import DocQuery.Proofs.LostKeys.Clauses
import DocQuery.Proofs.Parentheses

/-!
# Markers in front of a group

`NOT` and `IN` in front of an array turn a single clause, and are refused by a group of several members. Whether an array
is the one or the other is decided after its reduction, when empty arrays are gone and arrays of one member are flat.
It can be told from the array itself: an array with one value is a clause, and one with more is a group, however its
values are nested (`Grouping.reduce_cases`). So markers are refused if and only if there are two values
(`Grouping.reduce_marked`).

The clause of a value has the last key before it in its own array, and the last operator after that key
(`Group.Compares`, `Grouping.compares_of_reduce`).
-/

namespace DocQuery

open Grouping

/-! ## The condition of a value -/

/-- The operator that a node names. -/
def Node.operator? : Node → Option String
  | .token ⟨.operator, .str operator⟩ => some operator
  | _ => none

/-- The last operator among some nodes. -/
def Group.lastOperator? (nodes : List Node) : Option String := (nodes.filterMap Node.operator?).getLast?

/-- A value of an array, at any depth, as it is compared there: with the last key before it in its own array, and the
last operator after that key. -/
inductive Group.Compares : List Node → Condition → Prop
  | value {pre mid post : List Node} {key : String} {value : Json}
      (hmid : ∀ n ∈ mid, n.isKey = false ∧ isGroup n = false) :
      Compares (pre ++ .token ⟨.key, .str key⟩ :: (mid ++ .token ⟨.value, value⟩ :: post))
        ⟨key, Group.lastOperator? mid, value⟩
  | array {pre post nodes : List Node} {c : Condition} (h : Compares nodes c) : Compares (pre ++ .group nodes :: post) c

/-- The draft has the last key of the nodes before it and the last operator after that, or nothing at all. -/
inductive Draft.ReadFrom : Draft → List Node → Prop
  | pending {d : Draft} {pre : List Node} (hkey : d.key = none) (hoperator : d.operator = none) : ReadFrom d pre
  | keyed {d : Draft} {pre mid : List Node} {key : String} (hmid : ∀ n ∈ mid, n.isKey = false ∧ isGroup n = false)
      (hkey : d.key = some key) (hoperator : d.operator = Group.lastOperator? mid) :
      ReadFrom d (pre ++ .token ⟨.key, .str key⟩ :: mid)

namespace Draft.ReadFrom

variable {d : Draft} {pre : List Node}

theorem empty : ReadFrom {} [] := .pending rfl rfl

theorem operator_eq_none (h : d.ReadFrom pre) (hkey : d.key = none) : d.operator = none := by
  cases h with
  | pending _ hoperator => exact hoperator
  | keyed _ hkey' _ => simp [hkey] at hkey'

theorem setKey (h : d.ReadFrom pre) (key : String) : (d.setKey key).ReadFrom (pre ++ [.token ⟨.key, .str key⟩]) := by
  unfold Draft.setKey
  split
  · rename_i hpending
    have hoperator := h.operator_eq_none (by simpa [Draft.isPending] using hpending)
    exact .keyed (by simp) rfl (by simpa [Group.lastOperator?] using hoperator)
  · exact .keyed (by simp) rfl rfl

/-- One more node after the key. -/
theorem concat {d' : Draft} {node : Node} (h : d.ReadFrom pre) (hkey : d'.key = d.key)
    (hoperator : d'.operator = node.operator?.or d.operator) (hpending : d.key = none → node.operator? = none)
    (hnode : node.isKey = false ∧ isGroup node = false) : d'.ReadFrom (pre ++ [node]) := by
  cases h with
  | pending hnone hnone' =>
    refine .pending (hkey.trans hnone) ?_
    rw [hoperator, hpending hnone, hnone']
    rfl
  | @keyed pre mid key hmid hsome hlast =>
    rw [List.append_assoc, List.cons_append]
    refine .keyed (List.forall_mem_append.mpr ⟨hmid, by simpa using hnode⟩) (hkey.trans hsome) ?_
    rw [hoperator, hlast]
    cases hop : node.operator? <;> simp [Group.lastOperator?, hop]

/-- **One node**: the draft after it has been read from the nodes up to it. -/
theorem after {conjoined : Bool} {node : Node} {new : List Expr} (h : d.ReadFrom pre) (hg : Gives conjoined d node new) :
    (d.after node).ReadFrom (pre ++ [node]) := by
  cases hg with
  | array _ => exact .pending rfl rfl
  | clause value _ _ => exact h.concat rfl rfl (fun _ => rfl) ⟨rfl, rfl⟩
  | token payload hkind hoperator =>
    rcases hkind with rfl | rfl | rfl
    · exact h.setKey payload
    · refine h.concat rfl rfl (fun hnone => ?_) ⟨rfl, rfl⟩
      simp [hnone] at hoperator
    · simp only [Draft.after]
      split
      · exact .pending rfl rfl
      · exact h.concat rfl rfl (fun _ => rfl) ⟨rfl, rfl⟩
      · exact h.concat rfl rfl (fun _ => rfl) ⟨rfl, rfl⟩

end Draft.ReadFrom

/-- Markers leave the condition of a clause. -/
theorem Clause.condition_turned (markers : List Marker) (c : Clause) : (c.turned markers).condition = c.condition := by
  have htoggled : c.toggled.condition = c.condition := by unfold toggled; split <;> rfl
  have hlisted : ∀ d : Clause, d.listed.condition = d.condition := fun d => by unfold listed; split <;> rfl
  unfold turned
  cases markers.contains .not <;> cases markers.contains .inList <;> simp [htoggled, hlisted]

namespace Grouping

/-- Reduction, once the conditions of the members are known to stand in the array. -/
theorem compares_of_members {nodes : List Node} {markers : List Marker} {member : Option Expr}
    (hmembers : ∀ news, GivesAll (isConjoined nodes) {} nodes news →
      ∀ c ∈ Expr.clausesAll news, Group.Compares nodes c.condition)
    (h : reduce markers nodes = .ok member) :
    ∀ c ∈ Expr.clausesAll member.toList, Group.Compares nodes c.condition := by
  obtain ⟨news, hall, hclose⟩ := reduce_eq_ok h
  have hnews := hmembers news hall
  rcases hclose with ⟨_, rfl⟩ | ⟨e, e', rfl, hinherit, rfl⟩ | ⟨_, _, rfl⟩
  · simp [Expr.clausesAll]
  · rcases Expr.inherit_eq_ok hinherit with ⟨_, rfl⟩ | ⟨c, rfl, rfl⟩
    · exact hnews
    · simpa [Expr.clausesAll, Expr.clauses, Clause.condition_turned] using hnews
  · simpa [Expr.clausesAll, Expr.clauses] using hnews

mutual

theorem Gives.compares : ∀ {node : Node} {conjoined : Bool} {d : Draft} {new : List Expr} {pre : List Node}
    (post : List Node), d.ReadFrom pre → Gives conjoined d node new →
      ∀ c ∈ Expr.clausesAll new, Group.Compares (pre ++ node :: post) c.condition
  | .token _, conjoined, _, _, _, post, hd, .clause value hkey _ => by
    cases hd with
    | pending hnone _ => simp [hnone] at hkey
    | keyed hmid hsome hoperator =>
      cases hsome.symm.trans hkey
      have hcondition : ∀ c : Clause, (c.tag conjoined).condition = c.condition := fun c => by cases conjoined <;> rfl
      simp only [Expr.clausesAll, Expr.clauses, List.append_nil, List.forall_mem_singleton, hcondition, hoperator,
        List.append_assoc, List.cons_append]
      exact .value hmid
  | .token _, _, _, _, _, _, _, .token _ _ _ => by simp [Expr.clausesAll]
  | .group _, _, _, _, _, _, _, .array h => by
    intro c hc
    exact .array (compares_of_members (fun _ hnews => GivesAll.compares .empty hnews) h c hc)

theorem GivesAll.compares : ∀ {nodes : List Node} {conjoined : Bool} {d : Draft} {news : List Expr} {pre : List Node},
    d.ReadFrom pre → GivesAll conjoined d nodes news →
      ∀ c ∈ Expr.clausesAll news, Group.Compares (pre ++ nodes) c.condition
  | [], _, _, _, _, _, .nil _ => by simp [Expr.clausesAll]
  | node :: rest, _, _, _, pre, hd, .cons h hs => by
    rw [Expr.clausesAll_append, List.forall_mem_append]
    refine ⟨Gives.compares rest hd h, ?_⟩
    rw [List.append_cons]
    exact GivesAll.compares (hd.after h) hs

end

/-- **The conditions of a reduced array** are those of its values. -/
theorem compares_of_reduce {nodes : List Node} {markers : List Marker} {member : Option Expr}
    (h : reduce markers nodes = .ok member) :
    ∀ c ∈ Expr.clausesAll member.toList, Group.Compares nodes c.condition :=
  compares_of_members (fun _ hnews => GivesAll.compares .empty hnews) h

/-! ## How many values there are -/

/-- **An array reduces by the number of its values**: to nothing without one, to a clause with one, and to a group with
more. -/
theorem reduce_cases {nodes : List Node} {markers : List Marker} {member : Option Expr}
    (h : reduce markers nodes = .ok member) :
    (Group.values nodes = [] ∧ member = none) ∨
    (∃ c, (Group.values nodes).length = 1 ∧ member = some (.clause c)) ∨
    (∃ join members, 2 ≤ (Group.values nodes).length ∧ 2 ≤ members.length ∧ member = some (.group join members)) := by
  have hkeeps := keeps_of_reduce .or h
  have hvalues := hkeeps.values
  rcases member with _ | c | ⟨join, members⟩
  · exact .inl ⟨hvalues.symm, rfl⟩
  · refine .inr (.inl ⟨c, ?_, rfl⟩)
    rw [← hvalues]
    rfl
  · have htwo : 2 ≤ members.length := (branching_of_reduce h).1
    have hle : members.length ≤ (Expr.leavesAll members).length := hkeeps.populated.1.2.length_le
    refine .inr (.inr ⟨join, members, ?_, htwo, rfl⟩)
    rw [← hvalues, List.length_map, Option.toList_some, Expr.leavesAll_singleton]
    show 2 ≤ (Expr.leavesAll members).length
    omega

/-- **Markers in front of a group.** In front of an array that reduces without them, they are refused if and only if the
array has two values or more, at any depth. One value is a clause with the key, the operator and the value that it has
in its array, and no value is no expression. -/
theorem reduce_marked {nodes : List Node} {member : Option Expr} (h : reduce [] nodes = .ok member)
    {markers : List Marker} (hmarkers : markers ≠ []) :
    ((∃ e, reduce markers nodes = .error e) ↔ 2 ≤ (Group.values nodes).length) ∧
    (∀ e, reduce markers nodes = .error e →
      ∃ n, 2 ≤ n ∧ e = .unsupported (.markersBeforeGroup (Marker.resolve markers).modifiers.markers n)) ∧
    ((Group.values nodes).length = 1 →
      ∃ c, reduce markers nodes = .ok (some (.clause c)) ∧ Group.Compares nodes c.condition) ∧
    (Group.values nodes = [] → reduce markers nodes = .ok none) := by
  have hclose : reduce markers nodes = Gathered.close { members := member.toList } markers := by
    rw [reduce_eq_close, h]
    rfl
  rcases reduce_cases h with ⟨hnil, rfl⟩ | ⟨c, hone, rfl⟩ | ⟨join, members, hmany, htwo, rfl⟩
  · have hreduce : reduce markers nodes = .ok none := hclose
    simp [hreduce, hnil]
  · have hreduce := reduce_of_clause h markers
    have hcompares : Group.Compares nodes (c.turned markers).condition :=
      compares_of_reduce hreduce _ (by simp [Expr.clausesAll, Expr.clauses])
    refine ⟨?_, by simp [hreduce], fun _ => ⟨_, hreduce, hcompares⟩, fun hnil => by simp [hnil] at hone⟩
    simp [hreduce, hone]
  · have hreduce : reduce markers nodes =
        .error (.unsupported (.markersBeforeGroup (Marker.resolve markers).modifiers.markers members.length)) := by
      rw [hclose]
      simp [Gathered.close, Expr.inherit, hmarkers]
    refine ⟨?_, ?_, fun hone => by omega, fun hnil => by simp [hnil] at hmany⟩
    · simp [hreduce, hmany]
    · intro e he
      rw [hreduce] at he
      cases he
      exact ⟨members.length, htwo, rfl⟩

/-- One value, two arrays deep, beside an empty array. -/
def lone : List Node :=
  [.group [], .group [.group [.token ⟨.key, .str "a"⟩, .token ⟨.operator, .str ">"⟩, .token ⟨.value, .int 1⟩]]]

/-- Two values, of which one is deeper than the other. -/
def couple : List Node := lone ++ [.token ⟨.key, .str "b"⟩, .token ⟨.value, .int 2⟩]

theorem reduce_marked_negated :
    (∃ e, reduce [.not] couple = .error e) ∧
    (∃ c, reduce [.not] lone = .ok (some (.clause c)) ∧ Group.Compares lone c.condition) ∧
    reduce [.not] [.group [], .group [.group []]] = .ok none := by
  obtain ⟨pair, hpair⟩ : ∃ member, reduce [] couple = .ok member := ⟨_, rfl⟩
  obtain ⟨clause, hclause⟩ : ∃ member, reduce [] lone = .ok member := ⟨_, rfl⟩
  have hnothing : reduce [] [.group [], .group [.group []]] = .ok none := rfl
  have hnot : [Marker.not] ≠ [] := by decide
  exact ⟨(reduce_marked hpair hnot).1.mpr (by decide), (reduce_marked hclause hnot).2.2.1 (by decide),
    (reduce_marked hnothing hnot).2.2.2 rfl⟩

end Grouping

end DocQuery
