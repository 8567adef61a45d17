import DocQuery.Proofs.Clauses

/-!
# Words in any case

Four sorts of words are read whatever the case of their ASCII letters: identifiers, condition words, the operator
LIKE, and the directions of a sort clause. `TokenKind.capitals` writes the words of a kind in capitals and leaves
every other string as it is, and each reader of words takes the capitals for the word.

A message may quote a word as it was written, so a query written in capitals can fail with another message. Two calls
are *alike* (`Alike k`) if both fail with errors of one kind, or both succeed and the second result is the first one
under `k`. The parts of a condition, written in capitals, give alike calls up to the filter, where nothing of the
spelling is left (`Filter.addExpr_capitalized`).
-/

namespace DocQuery

/-! ## Letters -/

/-- The codes of the small letters lie 32 above those of the capitals. -/
theorem toNat_toUpper (c : Char) :
    c.toUpper.toNat = if 97 ≤ c.toNat ∧ c.toNat ≤ 122 then c.toNat - 32 else c.toNat := by
  have hsmall : ('a'.val ≤ c.val ∧ c.val ≤ 'z'.val) ↔ (97 ≤ c.toNat ∧ c.toNat ≤ 122) := Iff.rfl
  unfold Char.toUpper
  by_cases h : 97 ≤ c.toNat ∧ c.toNat ≤ 122
  · rw [dif_pos (hsmall.mpr h), if_pos h]
    show (c.val + ('A'.val - 'a'.val)).toNat = c.val.toNat - 32
    have hcode : 97 ≤ c.val.toNat ∧ c.val.toNat ≤ 122 := h
    have hdiff : ('A'.val - 'a'.val).toNat = 2 ^ 32 - 32 := by decide
    rw [UInt32.toNat_add]
    omega
  · rw [dif_neg (mt hsmall.mp h), if_neg h]

theorem toNat_toLower (c : Char) :
    c.toLower.toNat = if 65 ≤ c.toNat ∧ c.toNat ≤ 90 then c.toNat + 32 else c.toNat := by
  have hcapital : (c.val ≥ 'A'.val ∧ c.val ≤ 'Z'.val) ↔ (65 ≤ c.toNat ∧ c.toNat ≤ 90) := Iff.rfl
  unfold Char.toLower
  by_cases h : 65 ≤ c.toNat ∧ c.toNat ≤ 90
  · rw [dif_pos (hcapital.mpr h), if_pos h]
    show (c.val + ('a'.val - 'A'.val)).toNat = c.val.toNat + 32
    have hcode : 65 ≤ c.val.toNat ∧ c.val.toNat ≤ 90 := h
    have hdiff : ('a'.val - 'A'.val).toNat = 32 := by decide
    rw [UInt32.toNat_add]
    omega
  · rw [dif_neg (mt hcapital.mp h), if_neg h]

theorem toUpper_toUpper (s : String) : s.toUpper.toUpper = s.toUpper := by
  have hchar (c : Char) : c.toUpper.toUpper = c.toUpper := by
    rw [← Char.toNat_inj]
    grind [toNat_toUpper]
  apply String.toList_inj.mp
  show (String.map Char.toUpper (String.map Char.toUpper s)).toList = (String.map Char.toUpper s).toList
  simp [hchar]

theorem toLower_toUpper (s : String) : s.toUpper.toLower = s.toLower := by
  have hchar (c : Char) : c.toUpper.toLower = c.toLower := by
    rw [← Char.toNat_inj]
    grind [toNat_toUpper, toNat_toLower]
  apply String.toList_inj.mp
  show (String.map Char.toLower (String.map Char.toUpper s)).toList = (String.map Char.toLower s).toList
  simp [hchar]

/-! ## Readers of words -/

/-- An unknown name in capitals, and any other identifier as it is. -/
def Identifier.capitalized : Identifier → Identifier
  | .other name => .other name.toUpper
  | i => i

theorem Identifier.ofName_toUpper (name : String) : ofName name.toUpper = (ofName name).capitalized := by
  unfold ofName
  rw [toUpper_toUpper]
  split <;> rfl

theorem Identifier.isJoin_capitalized (i : Identifier) : i.capitalized.isJoin = i.isJoin := by
  cases i <;> rfl

theorem Combinator.ofCondition?_toUpper (word : String) : ofCondition? word.toUpper = ofCondition? word := by
  unfold ofCondition?
  rw [toUpper_toUpper]

theorem Marker.ofCondition?_toUpper (word : String) : ofCondition? word.toUpper = ofCondition? word := by
  unfold ofCondition?
  rw [toUpper_toUpper]

namespace Operator

/-- LIKE in capitals, and any other operator as it is. -/
def capitals (operator : String) : String := if isLike operator then operator.toUpper else operator

theorem isLike_toUpper (operator : String) : isLike operator.toUpper = isLike operator := by
  unfold isLike
  rw [toLower_toUpper]

theorem isLike_capitals (operator : String) : isLike (capitals operator) = isLike operator := by
  unfold capitals
  split
  · exact isLike_toUpper operator
  · rfl

end Operator

/-- The value with `f` applied to it if it is a string. -/
def Json.mapString (f : String → String) : Json → Json
  | .str s => .str (f s)
  | value => value

theorem Json.mapString_id (value : Json) : value.mapString id = value := by
  cases value <;> rfl

theorem Direction.ofJson?_toUpper (value : Json) : ofJson? (value.mapString String.toUpper) = ofJson? value := by
  cases value with
  | str s => simp only [Json.mapString, ofJson?, toLower_toUpper]
  | _ => rfl

/-- The words among the payloads of a kind of token in capitals, and every other string as it is. A value is a word
among the pairs of a sort clause only. -/
def TokenKind.capitals (sorting : Bool) : TokenKind → String → String
  | .identifier => String.toUpper
  | .condition => String.toUpper
  | .operator => Operator.capitals
  | .value => if sorting then String.toUpper else id
  | .key => id

/-! ## Calls that come out alike -/

inductive ErrorKind where
  | sortDirection
  | malformed
  | unsupported
deriving DecidableEq, Repr

/-- An error without what was found at its place. -/
def BuildError.kind : BuildError → ErrorKind
  | .sortDirection _ _ => .sortDirection
  | .malformed _ => .malformed
  | .unsupported _ => .unsupported

/-- Both calls fail with errors of the same kind, or the second gives the result of the first under `k`. -/
inductive Alike {α β : Type} (k : α → β) : Except BuildError α → Except BuildError β → Prop
  | ok {a : α} {b : β} (h : b = k a) : Alike k (.ok a) (.ok b)
  | error {e e' : BuildError} (h : e'.kind = e.kind) : Alike k (.error e) (.error e')

namespace Alike

variable {α β γ δ : Type} {k : α → β} {l : γ → δ} {x : Except BuildError α} {y : Except BuildError β}

theorem refl (x : Except BuildError α) : Alike id x x := by
  cases x with
  | ok a => exact .ok rfl
  | error e => exact .error rfl

/-- What follows may depend on how the first call came out. -/
theorem bind_ok {f : α → Except BuildError γ} {g : β → Except BuildError δ} (h : Alike k x y)
    (hfg : ∀ a, x = .ok a → Alike l (f a) (g (k a))) : Alike l (x >>= f) (y >>= g) := by
  cases h with
  | ok h => rw [h]; exact hfg _ rfl
  | error h => exact .error h

theorem bind {f : α → Except BuildError γ} {g : β → Except BuildError δ} (h : Alike k x y)
    (hfg : ∀ a, Alike l (f a) (g (k a))) : Alike l (x >>= f) (y >>= g) := h.bind_ok fun a _ => hfg a

theorem map {f : α → γ} {g : β → δ} (h : Alike k x y) (hfg : ∀ a, g (k a) = l (f a)) :
    Alike l (x.map f) (y.map g) := by
  cases h with
  | ok h => rw [h]; exact .ok (hfg _)
  | error h => exact .error h

/-- One call, and what is made of its result in either run. -/
theorem map_same {f : α → γ} {g : α → δ} (x : Except BuildError α) (hfg : ∀ a, g a = l (f a)) :
    Alike l (x.map f) (x.map g) := (refl x).map hfg

/-- Calls that leave a state behind when they fail. -/
theorem ofExcept {before : α} {before' : β} (h : Alike k x y) :
    Alike k (Attempt.ofExcept before x).result (Attempt.ofExcept before' y).result := by
  rwa [Attempt.result_ofExcept, Attempt.result_ofExcept]

theorem mapError_eq {x y : Except BuildError α} (h : Alike id x y) :
    y.mapError BuildError.kind = x.mapError BuildError.kind := by
  cases h with
  | ok h => rw [h]; rfl
  | error h => exact congrArg Except.error h

end Alike

/-! ## Clauses -/

/-- The condition with its operator in capitals. -/
def Condition.capitalized (c : Condition) : Condition := { c with operator := c.operator.map Operator.capitals }

theorem Condition.comparison_capitalized (style : LikeStyle) (c : Condition) :
    c.capitalized.comparison style = c.comparison style := by
  obtain ⟨key, operator, value⟩ := c
  cases operator with
  | none => rfl
  | some op =>
    simp only [comparison, capitalized, Option.map_some, Operator.isLike_capitals]
    split
    · simp only [Operator.operand, Option.any_some, Operator.isLike_capitals]
    · rename_i hlike
      rw [Operator.capitals, if_neg hlike]

/-- **Nothing of the spelling is left in a fragment.** -/
theorem Condition.fragment_capitalized (style : LikeStyle) (modifier : Modifier) (c : Condition) :
    c.capitalized.fragment style modifier = c.fragment style modifier := by
  cases modifier with
  | plain => exact comparison_capitalized style c
  | not =>
    obtain ⟨key, operator, value⟩ := c
    cases operator with
    | none => rfl
    | some op => exact congrArg (Except.map (Json.single "$not")) (comparison_capitalized style ⟨key, some op, value⟩)
  | inList => rfl
  | notInList => rfl

def Clause.capitalized (c : Clause) : Clause := { c with condition := c.condition.capitalized }

mutual

/-- The expression with its operators in capitals. -/
def Expr.capitalized : Expr → Expr
  | .clause c => .clause c.capitalized
  | .group combinator members => .group combinator (Expr.allCapitalized members)

def Expr.allCapitalized : List Expr → List Expr
  | [] => []
  | member :: rest => member.capitalized :: Expr.allCapitalized rest

end

theorem Expr.allCapitalized_eq_map (members : List Expr) : allCapitalized members = members.map capitalized := by
  induction members with
  | nil => rfl
  | cons member rest ih => rw [allCapitalized, ih, List.map_cons]

/-- Markers in front of a group turn the clause in capitals as they turn the clause. -/
theorem Expr.inherit_capitalized (markers : List Marker) (e : Expr) :
    Alike capitalized (e.inherit markers) (e.capitalized.inherit markers) := by
  unfold inherit
  split
  · exact .ok rfl
  · cases e with
    | clause c =>
      refine .ok ?_
      simp only [Clause.capitalized, capitalized]
      grind [Clause.mark]
    | group combinator members => exact .error rfl

namespace Filter

theorem apply_capitalized (style : LikeStyle) (f : Filter) (family : Family) (modifier : Modifier) (c : Condition) :
    f.apply style family modifier c.capitalized = f.apply style family modifier c := by
  unfold apply
  rw [Condition.fragment_capitalized]
  rfl

mutual

theorem addMember_capitalized (style : LikeStyle) (combinator : Combinator) (f : Filter) (e : Expr) :
    f.addMember style combinator e.capitalized = f.addMember style combinator e := by
  cases e with
  | clause c => exact apply_capitalized style f _ _ c.condition
  | group inner members => rw [Expr.capitalized, addMember, addMember, addMembers_capitalized style inner [] members]

theorem addMembers_capitalized (style : LikeStyle) (combinator : Combinator) (f : Filter) (members : List Expr) :
    f.addMembers style combinator (Expr.allCapitalized members) = f.addMembers style combinator members := by
  cases members with
  | nil => rfl
  | cons member rest =>
    rw [Expr.allCapitalized, addMembers, addMembers, addMember_capitalized style combinator f member]
    exact bind_congr_ok fun f' _ => addMembers_capitalized style combinator f' rest

end

/-- **Nothing of the spelling is left in a filter.** -/
theorem addExpr_capitalized (style : LikeStyle) (outer : Combinator) (f : Filter) (e : Expr) :
    f.addExpr style outer e.capitalized = f.addExpr style outer e := by
  cases e with
  | clause c => exact apply_capitalized style f _ _ c.condition
  | group combinator members => rw [Expr.capitalized, addExpr, addExpr, addMembers_capitalized]

end Filter

/-! ## Drafts -/

/-- The draft with its operator in capitals. -/
def Draft.capitalized (d : Draft) : Draft := { d with operator := d.operator.map Operator.capitals }

namespace Draft

theorem setKey_capitalized (d : Draft) (key : String) : d.capitalized.setKey key = (d.setKey key).capitalized := by
  obtain ⟨markers, key', operator, done⟩ := d
  cases key' <;> rfl

theorem setOperator_capitalized (d : Draft) (operator : String) :
    Alike capitalized (d.setOperator operator) (d.capitalized.setOperator (Operator.capitals operator)) := by
  unfold setOperator
  show Alike capitalized _ (if d.isPending then _ else _)
  split
  · exact .error rfl
  · exact .ok rfl

theorem complete_capitalized (d : Draft) (value : Json) :
    Alike (Prod.map Clause.capitalized capitalized) (d.complete value) (d.capitalized.complete value) := by
  obtain ⟨markers, key, operator, done⟩ := d
  cases key with
  | none => exact .error rfl
  | some key =>
    cases done with
    | false => exact .ok rfl
    | true => exact .error rfl

end Draft

end DocQuery
