import DocQuery.Proofs.Clauses
import Mathlib.Data.List.Induction

/-!
# Where a clause comes from

A draft is driven by calls (`Draft.Call`): a marker is put in front, a key or an operator is set, or a value is given.
A run goes on after the calls that fail (`Draft.run`). The four fields of the draft are what is left of all the calls
before, and can be told from them:

- key, operator and markers from the calls up to the last key and from those after it (`BuiltBy`, kept by each call in
  `BuiltBy.call` and by a run in `builtBy_run`),
- `done` from the last value that was taken (`Spent`, `done_iff_spent`).

`clause_provenance` puts the two together for a clause that a value completes, and says which calls fail. A cursor
among conditions makes the same calls, one for each key, operator and value, and goes on after those that fail in the
same way (`Cursor.draft_step`).
-/

namespace DocQuery

namespace Draft

inductive Call where
  | mark (marker : Marker)
  | key (key : String)
  | operator (operator : String)
  | value (value : Json)
deriving DecidableEq, Repr

namespace Call

def isKey : Call → Bool
  | .key _ => true
  | _ => false

/-- A key or an operator: after it a value can be given. -/
def opens : Call → Bool
  | .key _ => true
  | .operator _ => true
  | _ => false

def operator? : Call → Option String
  | .operator symbol => some symbol
  | _ => none

def marker? : Call → Option Marker
  | .mark marker => some marker
  | _ => none

theorem eq_key_of_isKey {call : Call} (h : call.isKey = true) : ∃ key, call = .key key := by
  cases call with
  | key name => exact ⟨name, rfl⟩
  | _ => cases h

end Call

/-- What a call leaves behind, and the clause that it completes. -/
structure Reply extends Attempt Draft where
  clause : Option Clause := none

/-- A call, made on the draft itself. -/
def edit : Call → Edit Draft (Option Clause)
  | .mark marker => do
    modify (·.mark marker)
    return none
  | .key key => do
    modify (·.setKey key)
    return none
  | .operator operator => do
    takeOperator operator
    return none
  | .value value => do return some (← takeValue value)

def call (d : Draft) (call : Call) : Reply :=
  match (edit call).run d with
  | .ok clause after => { state := after, clause }
  | .error e after => { state := after, error := some e }

/-- The draft after some calls, whether they failed or not. -/
def run (d : Draft) (calls : List Call) : Draft := calls.foldl (fun d call => (d.call call).state) d

variable {d : Draft} {calls : List Call}

theorem run_concat (d : Draft) (calls : List Call) (call : Call) :
    d.run (calls ++ [call]) = ((d.run calls).call call).state := by
  simp [run]

/-! ## What a call can do -/

theorem call_mark (d : Draft) (marker : Marker) : d.call (.mark marker) = { state := d.mark marker } := rfl

theorem call_key (d : Draft) (key : String) : d.call (.key key) = { state := d.setKey key } := rfl

theorem call_operator (d : Draft) (operator : String) :
    d.call (.operator operator) = { toAttempt := .ofExcept d (d.setOperator operator) } := by
  rcases d with ⟨markers, _ | key, _, _⟩ <;> rfl

theorem call_key_of_pending (hkey : d.key = none) (key : String) :
    d.call (.key key) = { state := { d with key := some key } } := by
  simp [call_key, setKey, isPending, hkey]

theorem call_key_of_keyed {last : String} (hkey : d.key = some last) (key : String) :
    d.call (.key key) = { state := { key := some key } } := by
  simp [call_key, setKey, isPending, hkey]

theorem call_operator_of_pending (hkey : d.key = none) (operator : String) :
    d.call (.operator operator) = { state := d, error := some (.malformed (.operatorWithoutKey operator)) } := by
  simp [call_operator, setOperator, isPending, hkey, Attempt.ofExcept]

theorem call_operator_of_keyed {key : String} (hkey : d.key = some key) (operator : String) :
    d.call (.operator operator) = { state := { d with operator := some operator, done := false } } := by
  simp [call_operator, setOperator, isPending, hkey, Attempt.ofExcept]

/-- A value is refused without a key, and after a value that was taken. -/
theorem complete_of_refused (h : d.key = none ∨ d.done = true) (value : Json) :
    d.complete value = .error (.malformed (.valueWithoutKey value)) := by
  unfold complete
  split
  · rename_i key hkey hdone
    simp [hkey, hdone] at h
  · rfl

theorem complete_of_open {key : String} (hkey : d.key = some key) (hdone : d.done = false) (value : Json) :
    d.complete value = .ok (⟨d.markers, ⟨key, d.operator, value⟩⟩, { d with done := true }) :=
  complete_eq_ok.mpr ⟨key, hkey, hdone, rfl, rfl⟩

theorem call_value_of_refused (h : d.key = none ∨ d.done = true) (value : Json) :
    d.call (.value value) = { state := d, error := some (.malformed (.valueWithoutKey value)) } := by
  rw [Draft.call, edit, EStateM.run_bind, run_takeValue_of_error (complete_of_refused h value)]

theorem call_value_of_open {key : String} (hkey : d.key = some key) (hdone : d.done = false) (value : Json) :
    d.call (.value value) =
      { state := { d with done := true }, clause := some ⟨d.markers, ⟨key, d.operator, value⟩⟩ } := by
  rw [Draft.call, edit, EStateM.run_bind, run_takeValue_of_ok (complete_of_open hkey hdone value)]
  rfl

theorem refused_or_open (d : Draft) :
    (d.key = none ∨ d.done = true) ∨ ∃ key, d.key = some key ∧ d.done = false := by
  cases hkey : d.key with
  | none => exact .inl (.inl rfl)
  | some key =>
    cases hdone : d.done with
    | true => exact .inl (.inr rfl)
    | false => exact .inr ⟨key, rfl, rfl⟩

/-- A value is refused, or it completes a clause. -/
theorem error_call_value (value : Json) : (d.call (.value value)).error ≠ none ↔ d.key = none ∨ d.done = true := by
  constructor
  · intro he
    rcases d.refused_or_open with h | ⟨key, hkey, hdone⟩
    · exact h
    · rw [call_value_of_open hkey hdone] at he
      exact absurd rfl he
  · intro h
    simp [call_value_of_refused h]

theorem error_call_operator (operator : String) : (d.call (.operator operator)).error ≠ none ↔ d.key = none := by
  cases hkey : d.key with
  | none => simp [call_operator_of_pending hkey]
  | some key => simp [call_operator_of_keyed hkey]

/-- A call that fails leaves the draft alone. -/
theorem state_of_error {call : Call} {e : BuildError} (he : (d.call call).error = some e) :
    (d.call call).state = d := by
  cases call with
  | mark marker => cases he
  | key key => cases he
  | operator operator =>
    have hkey : d.key = none := (error_call_operator operator).mp (by simp [he])
    rw [call_operator_of_pending hkey]
  | value value =>
    have hrefused : d.key = none ∨ d.done = true := (error_call_value value).mp (by simp [he])
    rw [call_value_of_refused hrefused]

/-! ## Key, operator and markers -/

/-- The markers that some calls put in front, the latest first. -/
def marks (calls : List Call) : List Marker := (calls.filterMap Call.marker?).reverse

/-- The operator that was set last among some calls. -/
def lastOperator? (calls : List Call) : Option String := (calls.filterMap Call.operator?).getLast?

theorem marks_append (calls calls' : List Call) : marks (calls ++ calls') = marks calls' ++ marks calls := by
  simp [marks]

theorem marks_key_cons (key : String) (calls : List Call) : marks (.key key :: calls) = marks calls := by
  simp [marks, List.filterMap_cons, Call.marker?]

theorem marks_concat (calls : List Call) (c : Call) : marks (calls ++ [c]) = c.marker?.toList ++ marks calls := by
  rw [marks_append]
  cases h : c.marker? <;> simp [marks, h]

theorem lastOperator?_concat (calls : List Call) (c : Call) :
    lastOperator? (calls ++ [c]) = c.operator?.or (lastOperator? calls) := by
  cases h : c.operator? <;> simp [lastOperator?, h]

/-- Before the first key, a draft collects markers and nothing else. -/
theorem state_call_of_pending (hkey : d.key = none) {c : Call} (hc : c.isKey = false) :
    (d.call c).state = { d with markers := c.marker?.toList ++ d.markers } := by
  cases c with
  | mark marker => rfl
  | key key => cases hc
  | operator operator => rw [call_operator_of_pending hkey]; rfl
  | value value => rw [call_value_of_refused (.inl hkey)]; rfl

/-- After a key, a call other than a key leaves the key, and adds to the markers or sets the operator. -/
theorem state_call_of_keyed {key : String} (hkey : d.key = some key) {c : Call} (hc : c.isKey = false) :
    ∃ done, (d.call c).state = ⟨c.marker?.toList ++ d.markers, some key, c.operator?.or d.operator, done⟩ := by
  cases c with
  | mark marker => exact ⟨d.done, by rw [← hkey]; rfl⟩
  | key key => cases hc
  | operator operator => exact ⟨false, by rw [call_operator_of_keyed hkey, ← hkey]; rfl⟩
  | value value =>
    rcases d.refused_or_open with h | ⟨key, hkey', hdone⟩
    · exact ⟨d.done, by rw [call_value_of_refused h, ← hkey]; rfl⟩
    · exact ⟨true, by rw [call_value_of_open hkey' hdone, ← hkey]; rfl⟩

/-- What calls leave in a draft that began with some markers. Before the first key there are markers only. Then the key
is the last one, the operator has been set after it, and a second key has thrown the markers before it away. -/
inductive BuiltBy (initial : List Marker) : List Call → Draft → Prop
  | pending {calls : List Call} (hcalls : calls.any Call.isKey = false) :
      BuiltBy initial calls { markers := marks calls ++ initial }
  | keyed {pre mid : List Call} {key : String} {done : Bool} (hmid : mid.any Call.isKey = false) :
      BuiltBy initial (pre ++ .key key :: mid)
        ⟨marks mid ++ (if pre.any Call.isKey then [] else marks pre ++ initial), some key, lastOperator? mid, done⟩

namespace BuiltBy

variable {initial : List Marker}

/-- **One call.** -/
theorem call (h : BuiltBy initial calls d) (c : Call) : BuiltBy initial (calls ++ [c]) (d.call c).state := by
  cases hc : c.isKey with
  | false =>
    have hnext : ∀ {l : List Call}, l.any Call.isKey = false → (l ++ [c]).any Call.isKey = false := fun hl => by
      rw [List.any_append, hl, List.any_cons, hc]
      rfl
    cases h with
    | pending hcalls =>
      rw [state_call_of_pending rfl hc, ← List.append_assoc, ← marks_concat]
      exact .pending (hnext hcalls)
    | @keyed pre mid key done hmid =>
      obtain ⟨done, hstate⟩ := state_call_of_keyed (d := ⟨_, some key, _, done⟩) rfl hc
      rw [hstate, List.append_assoc, List.cons_append, ← List.append_assoc, ← marks_concat, ← lastOperator?_concat]
      exact .keyed (hnext hmid)
  | true =>
    obtain ⟨key, rfl⟩ := Call.eq_key_of_isKey hc
    cases h with
    | pending hcalls =>
      have hkeyed := @keyed initial calls [] key false rfl
      rw [hcalls] at hkeyed
      rw [call_key_of_pending rfl]
      exact hkeyed
    | @keyed pre mid last done hmid =>
      have hsome : (pre ++ .key last :: mid).any Call.isKey = true := by simp [Call.isKey]
      have hkeyed := @keyed initial (pre ++ .key last :: mid) [] key false rfl
      rw [hsome] at hkeyed
      rw [call_key_of_keyed rfl]
      exact hkeyed

theorem isPending_eq (h : BuiltBy initial calls d) : d.isPending = !calls.any Call.isKey := by
  cases h with
  | pending hcalls =>
    rw [hcalls]
    rfl
  | keyed _ => simp [isPending, Call.isKey]

theorem key_eq_none_iff (h : BuiltBy initial calls d) : d.key = none ↔ ∀ key, .key key ∉ calls := by
  rw [← Option.isNone_iff_eq_none, ← isPending, h.isPending_eq, Bool.not_eq_true', List.any_eq_false]
  constructor
  · exact fun hcalls key hkey => hcalls _ hkey rfl
  · intro hkeys call hcall hkey
    obtain ⟨key, rfl⟩ := Call.eq_key_of_isKey hkey
    exact hkeys key hcall

end BuiltBy

/-- **A run.** -/
theorem builtBy_run (initial : List Marker) (calls : List Call) :
    BuiltBy initial calls ((withMarkers initial).run calls) := by
  induction calls using List.reverseRecOn with
  | nil => exact .pending rfl
  | append_singleton calls call ih =>
    rw [run_concat]
    exact ih.call call

/-! ## Values that were taken -/

/-- The last value that a run took has no key and no operator after it. -/
def Spent (start : Draft) (calls : List Call) : Prop :=
  ∃ before value after, calls = before ++ .value value :: after ∧
    ((start.run before).call (.value value)).error = none ∧
    (∀ pre other post, after = pre ++ .value other :: post →
      ((start.run (before ++ .value value :: pre)).call (.value other)).error ≠ none) ∧
    ∀ call ∈ after, call.opens = false

/-- Whether the draft takes a call as a value. -/
def Takes (d : Draft) (call : Call) : Prop := ∃ value, call = .value value ∧ (d.call call).error = none

theorem spent_concat (start : Draft) (calls : List Call) (call : Call) :
    Spent start (calls ++ [call]) ↔
      Takes (start.run calls) call ∨ ¬ Takes (start.run calls) call ∧ call.opens = false ∧ Spent start calls := by
  constructor
  · rintro ⟨before, value, after, heq, htaken, hlast, hafter⟩
    rcases List.eq_nil_or_concat after with rfl | ⟨after, last, rfl⟩
    · obtain ⟨rfl, h⟩ := List.append_inj' heq rfl
      cases h
      exact .inl ⟨value, rfl, htaken⟩
    · rw [List.concat_eq_append, ← List.cons_append, ← List.append_assoc] at heq
      obtain ⟨rfl, h⟩ := List.append_inj' heq rfl
      cases h
      simp only [List.concat_eq_append] at hlast hafter
      refine .inr ⟨?_, hafter call (by simp), before, value, after, rfl, htaken, ?_, ?_⟩
      · rintro ⟨other, rfl, hother⟩
        exact hlast after other [] rfl hother
      · intro pre other post h
        exact hlast pre other (post ++ [call]) (by simp [h])
      · exact fun c hc => hafter c (by simp [hc])
  · rintro (⟨value, rfl, htaken⟩ | ⟨hnot, hopens, before, value, after, rfl, htaken, hlast, hafter⟩)
    · exact ⟨calls, value, [], rfl, htaken, by simp, by simp⟩
    · refine ⟨before, value, after ++ [call], by simp, htaken, ?_, ?_⟩
      · intro pre other post h
        rcases List.eq_nil_or_concat post with rfl | ⟨post, last, rfl⟩
        · obtain ⟨rfl, hcall⟩ := List.append_inj' h rfl
          cases hcall
          exact fun hother => hnot ⟨other, rfl, hother⟩
        · rw [List.concat_eq_append, ← List.cons_append, ← List.append_assoc] at h
          exact hlast pre other post (List.append_inj' h rfl).1
      · exact List.forall_mem_append.mpr ⟨hafter, by simpa using hopens⟩

/-- The draft is done exactly when the last value that was taken still stands. -/
theorem done_iff_spent (initial : List Marker) (calls : List Call) :
    ((withMarkers initial).run calls).done = true ↔ Spent (withMarkers initial) calls := by
  induction calls using List.reverseRecOn with
  | nil => simp [run, withMarkers, Spent]
  | append_singleton calls call ih =>
    have hbuilt := builtBy_run initial calls
    rw [spent_concat, ← ih, run_concat]
    generalize (withMarkers initial).run calls = d at hbuilt ⊢
    have hpending : d.key = none → d.done = false := by
      cases hbuilt with
      | pending _ => exact fun _ => rfl
      | keyed _ => exact fun h => by cases h
    cases call with
    | mark marker => simp [Takes, Call.opens, call_mark, mark]
    | key key =>
      cases hkey : d.key with
      | none => simp [Takes, Call.opens, call_key_of_pending hkey, hpending hkey]
      | some _ => simp [Takes, Call.opens, call_key_of_keyed hkey]
    | operator operator =>
      cases hkey : d.key with
      | none => simp [Takes, Call.opens, call_operator_of_pending hkey, hpending hkey]
      | some _ => simp [Takes, Call.opens, call_operator_of_keyed hkey]
    | value value =>
      rcases d.refused_or_open with h | ⟨key, hkey, hdone⟩
      · simp [Takes, Call.opens, call_value_of_refused h]
      · simp [Takes, Call.opens, call_value_of_open hkey hdone]

end Draft

/-! ## Drafts of a cursor -/

/-- The call that a token makes on the draft of a condition. -/
def Token.draftCall? (t : Token) : Option Draft.Call :=
  match t.kind, t.value with
  | .key, .str key => some (.key key)
  | .operator, .str operator => some (.operator operator)
  | .value, value => some (.value value)
  | _, _ => none

/-- A cursor among conditions keeps its draft as the call leaves it, and stays as it was if the call fails. -/
theorem Cursor.draft_step {c : Cursor} {t : Token} {call : Draft.Call} (hs : c.scope = .conditions)
    (ht : t.draftCall? = some call) :
    (c.step (.token t)).state.draft = (c.draft.call call).state ∧
      ∀ e, (c.draft.call call).error = some e → c.step (.token t) = ⟨c, some e⟩ := by
  obtain ⟨kind, payload⟩ := t
  simp only [Token.draftCall?] at ht
  split at ht
  · cases ht
    simp [step, operand, hs, conditionOperand, Token.string, Except.map, Attempt.ofExcept, Draft.call_key]
  · cases ht
    rename_i operator
    simp only [step, operand, hs, conditionOperand_operator, Token.string, bind, Except.bind, Draft.call_operator]
    cases c.draft.setOperator operator with
    | error e => simp [Attempt.ofExcept]
    | ok d => simp [Attempt.ofExcept, pure, Except.pure]
  · cases ht
    simp only [step, operand, hs, conditionOperand]
    rcases c.draft.refused_or_open with h | ⟨key, hkey, hdone⟩
    · simp [Draft.call_value_of_refused h, conditionValue_of_error (Draft.complete_of_refused h payload)]
    · rw [Draft.call_value_of_open hkey hdone, conditionValue_of_ok (Draft.complete_of_open hkey hdone payload)]
      -- The draft is done whether or not the clause can be emitted.
      refine ⟨?_, fun e he => by cases he⟩
      cases c.query.apply .root c.modifiers.resolved ⟨key, c.draft.operator, payload⟩ <;> rfl
  · cases ht

/-! ## Clauses -/

namespace Draft

/-- **Provenance.** A value that is taken completes the clause of the last key, with the last operator after that key.
The clause has the markers since the last key that found another key set, or all of them and the initial ones if no key
did. A value is refused if there was no key, or if the last value that was taken has no key and no operator after it; an
operator is refused if there was no key. A refused call changes nothing, in the draft and in a cursor that holds it. -/
theorem clause_provenance (initial : List Marker) (calls : List Call) :
    (∀ value, (((withMarkers initial).run calls).call (.value value)).error = none →
      ∃ pre key mid, calls = pre ++ .key key :: mid ∧ mid.any Call.isKey = false ∧
        (((withMarkers initial).run calls).call (.value value)).clause = some {
          markers := if ((withMarkers initial).run pre).isPending then marks calls ++ initial else marks mid
          condition := ⟨key, lastOperator? mid, value⟩ }) ∧
    (∀ value, (((withMarkers initial).run calls).call (.value value)).error ≠ none ↔
      (∀ key, .key key ∉ calls) ∨ Spent (withMarkers initial) calls) ∧
    (∀ operator, (((withMarkers initial).run calls).call (.operator operator)).error ≠ none ↔
      ∀ key, .key key ∉ calls) ∧
    (∀ call e, (((withMarkers initial).run calls).call call).error = some e →
      (((withMarkers initial).run calls).call call).state = (withMarkers initial).run calls ∧
      ∀ (c : Cursor) (t : Token), c.scope = .conditions → c.draft = (withMarkers initial).run calls →
        t.draftCall? = some call → c.step (.token t) = ⟨c, some e⟩) := by
  have hbuilt := builtBy_run initial calls
  refine ⟨fun value htaken => ?_, fun value => ?_, fun operator => ?_, fun call e he => ⟨state_of_error he, ?_⟩⟩
  · rcases ((withMarkers initial).run calls).refused_or_open with h | ⟨key, hkey, hdone⟩
    · exact absurd htaken ((error_call_value value).mpr h)
    rw [call_value_of_open hkey hdone]
    generalize (withMarkers initial).run calls = d at hbuilt hkey
    cases hbuilt with
    | pending _ => cases hkey
    | @keyed pre mid key done hmid =>
      cases hkey
      refine ⟨pre, key, mid, rfl, hmid, ?_⟩
      -- The last key found another one exactly if there is a key before it.
      have hpre := (builtBy_run initial pre).isPending_eq
      cases hany : pre.any Call.isKey with
      | true => simp [hpre, hany]
      | false => simp [hpre, hany, marks_append, marks_key_cons]
  · rw [error_call_value, hbuilt.key_eq_none_iff, done_iff_spent]
  · rw [error_call_operator, hbuilt.key_eq_none_iff]
  · intro c t hs hd ht
    rw [← hd] at he
    exact (Cursor.draft_step hs ht).2 e he

example : withMarkers [] = {} := rfl

example : (((withMarkers [.not]).run [.key "votes", .operator ">", .value (.int 100), .operator "<"]).call
    (.value (.int 200))).clause = some ⟨[.not], ⟨"votes", some "<", .int 200⟩⟩ := by
  decide +kernel

end Draft

end DocQuery
