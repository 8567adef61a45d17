import DocQuery.Proofs.Attributes
import DocQuery.Proofs.Filter.Members

/-!
# How many alternatives a filter has

The choices of a filter are the elements of its `$or` lists, at any depth. They tell a condition that is one of several
alternatives from the same condition among those that are required, whatever the two say.

Every addition to a regular filter adds a number of choices that does not depend on the filter. `Filter.Offers f n`
counts them: expressions and parts add their own choices (`Offers.addExpr`, `Offers.takesAll`).
-/

namespace DocQuery

/-- What an element under a connective counts. -/
def Combinator.choice : Combinator → Nat
  | .and => 0
  | .or => 1

mutual

/-- The choices in an element of a connective. -/
def Json.choices : Json → Nat
  | .obj entries => Filter.choices entries
  | .arr _ => 0
  | .null => 0
  | .bool _ => 0
  | .num _ => 0
  | .str _ => 0

def Filter.choices : Filter → Nat
  | [] => 0
  | (key, value) :: rest => Filter.entryChoices key value + Filter.choices rest

def Filter.entryChoices (key : String) : Json → Nat
  | .arr items =>
    match Combinator.ofOperator? key with
    | some c => Filter.elementChoices c items
    | none => 0
  | .obj _ => 0
  | .null => 0
  | .bool _ => 0
  | .num _ => 0
  | .str _ => 0

def Filter.elementChoices (c : Combinator) : List Json → Nat
  | [] => 0
  | item :: rest => (c.choice + item.choices) + Filter.elementChoices c rest

end

namespace Filter

variable {f : Filter} {key : String} {fragment : Json}

theorem choices_append : ∀ f g : Filter, choices (f ++ g) = choices f + choices g
  | [], g => (Nat.zero_add g.choices).symm
  | (key, value) :: rest, g => by
    rw [List.cons_append, choices, choices, choices_append rest g, Nat.add_assoc]

theorem elementChoices_append (c : Combinator) : ∀ xs ys : List Json,
    elementChoices c (xs ++ ys) = elementChoices c xs + elementChoices c ys
  | [], ys => (Nat.zero_add (elementChoices c ys)).symm
  | x :: xs, ys => by
    rw [List.cons_append, elementChoices, elementChoices, elementChoices_append c xs ys]
    omega

theorem choices_split (before after : Filter) (key : String) (value : Json) :
    choices (before ++ (key, value) :: after) = choices before + (entryChoices key value + choices after) := by
  rw [choices_append, choices]

theorem entryChoices_operator (c : Combinator) (items : List Json) :
    entryChoices c.operator (.arr items) = elementChoices c items := by
  simp [entryChoices]

/-- The entry of an attribute offers no choice. -/
theorem entryChoices_of_attribute (h : Combinator.ofOperator? key = none) (value : Json) :
    entryChoices key value = 0 := by
  cases value <;> simp [entryChoices, h]

theorem choices_single (h : Combinator.ofOperator? key = none) (value : Json) :
    (Json.single key value).choices = 0 := by
  simp [Json.single, Json.choices, choices, entryChoices_of_attribute h]

/-! ## Additions -/

theorem choices_push (h : f.Regular) (c : Combinator) (entry : Json) :
    (f.push c entry).choices = f.choices + (c.choice + entry.choices) := by
  rcases h.push_cases c entry with ⟨_, hp⟩ | ⟨before, first, rest, after, rfl, hp⟩
  · rw [hp, choices_append]
    simp [choices, entryChoices_operator, elementChoices]
  · rw [hp, choices_split, choices_split, entryChoices_operator, entryChoices_operator, elementChoices_append]
    simp only [elementChoices]
    omega

theorem choices_conjoin (h : f.Regular) (hkey : Combinator.ofOperator? key = none) (fragment : Json) :
    (f.conjoin key fragment).choices = f.choices := by
  rcases conjoin_cases f key fragment with ⟨_, hj⟩ | ⟨before, old, after, new, _, rfl, _, rfl, hj⟩ | ⟨_, _, _, hj⟩
  · rw [hj, choices_append]
    simp [choices, entryChoices_of_attribute hkey]
  · rw [hj, choices_split, choices_split, entryChoices_of_attribute hkey, entryChoices_of_attribute hkey]
  · rw [hj, choices_push h, choices_single hkey]
    rfl

/-- A filter under a connective is one more element there, with the choices that it has itself. -/
theorem choices_graft (h : f.Regular) (c : Combinator) {nested : Filter} (hn : nested ≠ []) :
    (f.graft c nested).choices = f.choices + (c.choice + nested.choices) := by
  rw [graft_of_ne_nil f c hn, choices_push h]
  rfl

end Filter

/-! ## The choices of expressions and parts -/

namespace Expr

mutual

/-- The choices that a member adds to its group under `join`. -/
def choices (join : Combinator) : Expr → Nat
  | .clause c => if c.markers.contains .and then 0 else join.choice
  | .group inner members => join.choice + choicesAll inner members

def choicesAll (join : Combinator) : List Expr → Nat
  | [] => 0
  | e :: rest => e.choices join + choicesAll join rest

end

theorem choicesAll_append (join : Combinator) : ∀ xs ys : List Expr,
    choicesAll join (xs ++ ys) = choicesAll join xs + choicesAll join ys
  | [], ys => (Nat.zero_add (choicesAll join ys)).symm
  | x :: xs, ys => by
    rw [List.cons_append, choicesAll, choicesAll, choicesAll_append join xs ys, Nat.add_assoc]

/-- The choices within an expression. A clause alone has none. -/
def innerChoices : Expr → Nat
  | .clause _ => 0
  | .group inner members => choicesAll inner members

end Expr

/-- The choices that a part adds to a filter. -/
def Part.choices : Part → Nat
  | .leaf _ => 0
  | .array join markers nodes =>
    match Grouping.reduce markers nodes with
    | .ok (some e) => join.choice + e.innerChoices
    | _ => 0

def Part.choicesAll : List Part → Nat
  | [] => 0
  | p :: rest => p.choices + Part.choicesAll rest

theorem Part.choicesAll_append : ∀ ps qs : List Part,
    Part.choicesAll (ps ++ qs) = Part.choicesAll ps + Part.choicesAll qs
  | [], qs => (Nat.zero_add (Part.choicesAll qs)).symm
  | p :: ps, qs => by
    rw [List.cons_append, Part.choicesAll, Part.choicesAll, Part.choicesAll_append ps qs, Nat.add_assoc]

namespace Filter

variable {style : LikeStyle} {f f' : Filter} {n : Nat}

structure Offers (f : Filter) (n : Nat) : Prop where
  regular : f.Regular
  choices : f.choices = n

namespace Offers

theorem empty : Offers [] 0 := ⟨.empty, rfl⟩

theorem conjoin {l : Leaf} (h : f.Offers n) (hl : l.Proper) (fragment : Json) :
    (f.conjoin l.condition.key fragment).Offers n where
  regular := h.regular.conjoin hl.key fragment
  choices := by rw [choices_conjoin h.regular hl.key, h.choices]

theorem push {l : Leaf} (join : Combinator) (h : f.Offers n) (hl : l.Proper) (fragment : Json) :
    (f.push join (.single l.condition.key fragment)).Offers (n + join.choice) where
  regular := h.regular.push join _
  choices := by rw [choices_push h.regular, choices_single hl.key, h.choices, Nat.add_zero]

theorem graft {nested : Filter} {m : Nat} (join : Combinator) (h : f.Offers n) (hn : nested.Offers m)
    (hne : nested ≠ []) : (f.graft join nested).Offers (n + (join.choice + m)) where
  regular := h.regular.graft join nested
  choices := by rw [choices_graft h.regular join hne, h.choices, hn.choices]

/-! ## Expressions -/

mutual

theorem addMember : ∀ {e : Expr} {join : Combinator} {f f' : Filter} {n : Nat}, (∀ l ∈ e.leaves, l.Proper) →
    e.Populated → f.Offers n → Filter.addMember style join f e = .ok f' → f'.Offers (n + e.choices join)
  | .clause c, join, _, _, _, hproper, _, ho, h => by
    obtain ⟨fragment, _, rfl⟩ := addMember_clause h
    have hl : c.leaf.Proper := hproper c.leaf (by simp [Expr.leaves, Expr.clauses])
    rw [Expr.choices]
    cases hc : c.markers.contains .and with
    | true => exact ho.conjoin hl fragment
    | false =>
      cases join with
      | and => exact ho.conjoin hl fragment
      | or => exact ho.push .or hl fragment
  | .group inner members, join, _, _, _, hproper, hp, ho, h => by
    obtain ⟨nested, hn, rfl⟩ := addMember_group h
    have hnested := addMembers hproper hp.2 .empty hn
    rw [Nat.zero_add] at hnested
    exact ho.graft join hnested (addMembers_ne_nil hp.2 (.inr hp.1) hn)

theorem addMembers : ∀ {members : List Expr} {join : Combinator} {f f' : Filter} {n : Nat},
    (∀ l ∈ Expr.leavesAll members, l.Proper) → Expr.AllPopulated members → f.Offers n →
      Filter.addMembers style join f members = .ok f' → f'.Offers (n + Expr.choicesAll join members)
  | [], _, _, _, _, _, _, ho, h => by
    cases h
    exact ho
  | e :: rest, join, _, _, _, hproper, hp, ho, h => by
    obtain ⟨f₁, h₁, h₂⟩ := addMembers_cons h
    rw [Expr.leavesAll_cons, List.forall_mem_append] at hproper
    have ho' := addMembers hproper.2 hp.2 (addMember hproper.1 hp.1 ho h₁) h₂
    rwa [Nat.add_assoc] at ho'

end

theorem addExpr {e : Expr} {join : Combinator} (hproper : ∀ l ∈ e.leaves, l.Proper) (hp : e.Populated)
    (ho : f.Offers n) (h : f.addExpr style join e = .ok f') : f'.Offers (n + (join.choice + e.innerChoices)) := by
  cases e with
  | clause c =>
    obtain ⟨fragment, _, rfl⟩ := addExpr_clause h
    exact ho.push join (hproper c.leaf (by simp [Expr.leaves, Expr.clauses])) fragment
  | group inner members =>
    obtain ⟨nested, hn, rfl⟩ := addExpr_group h
    have hnested := addMembers hproper hp.2 .empty hn
    rw [Nat.zero_add] at hnested
    exact ho.graft join hnested (addMembers_ne_nil hp.2 (.inr hp.1) hn)

/-! ## Parts -/

theorem takes {p : Part} (hproper : ∀ l ∈ p.leaves, l.Proper) (ho : f.Offers n) (h : Filter.Takes style f p f') :
    f'.Offers (n + p.choices) := by
  cases h with
  | @leaf l fragment _ => exact ho.conjoin (hproper l (by simp [Part.leaves, Part.demand, Demand.leaves])) fragment
  | @array _ join _ _ _ hr ha =>
    rw [Part.leaves_array join hr, Option.toList_some, Expr.leavesAll_singleton] at hproper
    rw [Part.choices, hr]
    exact ho.addExpr hproper (Grouping.keeps_of_reduce join hr).populated.1 ha
  | nothing hr =>
    rw [Part.choices, hr]
    exact ho

theorem takesAll {ps : List Part} (hproper : ∀ p ∈ ps, ∀ l ∈ p.leaves, l.Proper) (ho : f.Offers n)
    (h : Filter.TakesAll style f ps f') : f'.Offers (n + Part.choicesAll ps) := by
  induction h generalizing n with
  | nil f => exact ho
  | cons hp _ ih =>
    rw [List.forall_mem_cons] at hproper
    have ho' := ih hproper.2 (ho.takes hproper.1 hp)
    rwa [Nat.add_assoc] at ho'

end Offers

end Filter

end DocQuery
