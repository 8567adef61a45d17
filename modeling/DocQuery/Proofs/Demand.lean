import DocQuery.Proofs.Filter.Meaning

/-!
# Demands

The boolean reading of conditions, apart from how they are compiled. A *leaf* is one condition with its modifier. A
*demand* is a leaf, or an array of demands that is joined to its surroundings by `AND` or by `OR`.

Demands that stand together hold (`Demand.Together`) if all leaves and all arrays joined by `AND` hold and, if there
are arrays joined by `OR`, at least one of them does. An array holds if the demands in it hold together.
-/

namespace DocQuery

/-! ## Modifiers as two switches -/

namespace Modifier

def of : (negated listed : Bool) → Modifier
  | true, true => .notInList
  | true, false => .not
  | false, true => .inList
  | false, false => .plain

def isNegated : Modifier → Bool
  | .not => true
  | .notInList => true
  | .plain => false
  | .inList => false

def isListed : Modifier → Bool
  | .inList => true
  | .notInList => true
  | .plain => false
  | .not => false

/-- Markers in front of an array: `NOT` toggles the negation, and `IN` makes a list test. -/
def turn (markers : List Marker) (m : Modifier) : Modifier :=
  .of (m.isNegated ^^ markers.contains .not) (m.isListed || markers.contains .inList)

@[simp] theorem isNegated_of (negated listed : Bool) : (of negated listed).isNegated = negated := by
  cases negated <;> cases listed <;> rfl

@[simp] theorem isListed_of (negated listed : Bool) : (of negated listed).isListed = listed := by
  cases negated <;> cases listed <;> rfl

theorem turn_nil (m : Modifier) : m.turn [] = m := by
  cases m <;> rfl

end Modifier

theorem Modifiers.resolved_eq (m : Modifiers) :
    m.resolved = .of (m.markers.contains .not) (m.markers.contains .inList) := by
  unfold resolved
  cases m.markers.contains .not <;> cases m.markers.contains .inList <;> rfl

/-! ## Leaves -/

/-- A condition, and how it is turned. -/
structure Leaf where
  condition : Condition
  modifier : Modifier
deriving DecidableEq, Repr

namespace Leaf

def fragment (style : LikeStyle) (l : Leaf) : Except BuildError Json := l.condition.fragment style l.modifier

/-- The atoms of the leaf's fragment. -/
def atoms (style : LikeStyle) (l : Leaf) : List Atom :=
  match l.fragment style with
  | .ok fragment => leafAtoms l.condition.key fragment
  | .error _ => []

/-- The leaf has a fragment, and that holds under its key. -/
def Holds (style : LikeStyle) (V : String → Json → Prop) (l : Leaf) : Prop :=
  ∃ fragment, l.fragment style = .ok fragment ∧ LeafHolds V l.condition.key fragment

def turn (markers : List Marker) (l : Leaf) : Leaf := { l with modifier := l.modifier.turn markers }

theorem turn_nil (l : Leaf) : l.turn [] = l := by
  simp [turn, Modifier.turn_nil]

theorem map_turn_nil (ls : List Leaf) : ls.map (Leaf.turn []) = ls :=
  (List.map_congr_left fun l _ => turn_nil l).trans (List.map_id ls)

theorem holds_iff {style : LikeStyle} {V : String → Json → Prop} {l : Leaf} {fragment : Json}
    (h : l.fragment style = .ok fragment) : l.Holds style V ↔ LeafHolds V l.condition.key fragment := by
  constructor
  · rintro ⟨fragment', h', hv⟩
    rw [h] at h'
    cases h'
    exact hv
  · exact fun hv => ⟨fragment, h, hv⟩

theorem atoms_eq {style : LikeStyle} {l : Leaf} {fragment : Json} (h : l.fragment style = .ok fragment) :
    l.atoms style = leafAtoms l.condition.key fragment := by
  simp [atoms, h]

end Leaf

/-! ## Demands -/

inductive Demand where
  | leaf (l : Leaf)
  | array (join : Combinator) (parts : List Demand)

namespace Demand

/-- An array that is joined by `OR`. -/
def isAlternative : Demand → Bool
  | .array .or _ => true
  | .array .and _ => false
  | .leaf _ => false

mutual

/-- The leaves in the order of the document. -/
def leaves : Demand → List Leaf
  | .leaf l => [l]
  | .array _ parts => leavesAll parts

def leavesAll : List Demand → List Leaf
  | [] => []
  | d :: rest => d.leaves ++ leavesAll rest

end

mutual

/-- Markers in front of an array turn every leaf in it. -/
def turn (markers : List Marker) : Demand → Demand
  | .leaf l => .leaf (l.turn markers)
  | .array join parts => .array join (turnAll markers parts)

def turnAll (markers : List Marker) : List Demand → List Demand
  | [] => []
  | d :: rest => d.turn markers :: turnAll markers rest

end

section Holds

variable (style : LikeStyle) (V : String → Json → Prop)

mutual

def Holds : Demand → Prop
  | .leaf l => l.Holds style V
  | .array _ parts => AllRequired parts ∧ (parts.any isAlternative = true → SomeAlternative parts)

/-- All parts that are no alternatives hold. -/
def AllRequired : List Demand → Prop
  | [] => True
  | d :: rest => (d.isAlternative = false → d.Holds) ∧ AllRequired rest

/-- One of the alternatives holds. -/
def SomeAlternative : List Demand → Prop
  | [] => False
  | d :: rest => (d.isAlternative = true ∧ d.Holds) ∨ SomeAlternative rest

end

/-- All leaves and all arrays joined by `AND` hold, and one of the arrays joined by `OR`, if there are any. -/
def Together (parts : List Demand) : Prop :=
  (∀ d ∈ parts, d.isAlternative = false → d.Holds style V) ∧
    ((∃ d ∈ parts, d.isAlternative = true) → ∃ d ∈ parts, d.isAlternative = true ∧ d.Holds style V)

end Holds

variable {style : LikeStyle} {V : String → Json → Prop}

theorem leavesAll_eq : ∀ parts : List Demand, leavesAll parts = parts.flatMap leaves
  | [] => rfl
  | d :: rest => by rw [leavesAll, leavesAll_eq rest, List.flatMap_cons]

theorem leavesAll_singleton (d : Demand) : leavesAll [d] = d.leaves := by
  rw [leavesAll, leavesAll, List.append_nil]

theorem leavesAll_append (xs ys : List Demand) : leavesAll (xs ++ ys) = leavesAll xs ++ leavesAll ys := by
  simp only [leavesAll_eq, List.flatMap_append]

theorem allRequired_iff : ∀ parts : List Demand,
    AllRequired style V parts ↔ ∀ d ∈ parts, d.isAlternative = false → d.Holds style V
  | [] => by simp [AllRequired]
  | d :: rest => by rw [AllRequired, allRequired_iff rest, List.forall_mem_cons]

theorem someAlternative_iff : ∀ parts : List Demand,
    SomeAlternative style V parts ↔ ∃ d ∈ parts, d.isAlternative = true ∧ d.Holds style V
  | [] => by simp [SomeAlternative]
  | d :: rest => by simp [SomeAlternative, someAlternative_iff rest]

/-- An array holds if its parts hold together. -/
theorem holds_array (join : Combinator) (parts : List Demand) :
    (array join parts).Holds style V ↔ Together style V parts := by
  rw [Holds, allRequired_iff, someAlternative_iff, Together, List.any_eq_true]

/-- A single part holds together with nothing else. -/
theorem together_singleton (d : Demand) : Together style V [d] ↔ d.Holds style V := by
  cases h : d.isAlternative <;> simp [Together, h]

/-! ## Turning -/

mutual

theorem turn_nil : ∀ d : Demand, d.turn [] = d
  | .leaf l => by rw [turn, Leaf.turn_nil]
  | .array join parts => by rw [turn, turnAll_nil parts]

theorem turnAll_nil : ∀ parts : List Demand, turnAll [] parts = parts
  | [] => rfl
  | d :: rest => by rw [turnAll, turn_nil d, turnAll_nil rest]

end

mutual

theorem leaves_turn (markers : List Marker) : ∀ d : Demand, (d.turn markers).leaves = d.leaves.map (Leaf.turn markers)
  | .leaf l => rfl
  | .array join parts => by rw [turn, leaves, leaves, leavesAll_turnAll markers parts]

theorem leavesAll_turnAll (markers : List Marker) :
    ∀ parts : List Demand, leavesAll (turnAll markers parts) = (leavesAll parts).map (Leaf.turn markers)
  | [] => rfl
  | d :: rest => by
    rw [turnAll, leavesAll, leavesAll, List.map_append, leaves_turn markers d, leavesAll_turnAll markers rest]

end

theorem isAlternative_turn (markers : List Marker) (d : Demand) : (d.turn markers).isAlternative = d.isAlternative := by
  cases d with
  | leaf l => rfl
  | array join parts => cases join <;> rfl

/-! ## Arrays with a single leaf -/

mutual

/-- Every array in it has a leaf. -/
def Populated : Demand → Prop
  | .leaf _ => True
  | .array _ parts => leavesAll parts ≠ [] ∧ AllPopulated parts

def AllPopulated : List Demand → Prop
  | [] => True
  | d :: rest => d.Populated ∧ AllPopulated rest

end

theorem Populated.leaves_ne_nil {d : Demand} (h : d.Populated) : d.leaves ≠ [] := by
  cases d with
  | leaf l => simp [leaves]
  | array join parts => exact h.1

mutual

/-- However deep it stands, a lone leaf decides. -/
theorem holds_of_leaves_singleton {l : Leaf} :
    ∀ d : Demand, d.Populated → d.leaves = [l] → (d.Holds style V ↔ l.Holds style V)
  | .leaf l', _, h => by
    simp only [leaves, List.cons.injEq, and_true] at h
    rw [Holds, h]
  | .array join parts, hp, h => by
    rw [holds_array]
    exact together_of_leaves_singleton parts hp.2 h

theorem together_of_leaves_singleton {l : Leaf} :
    ∀ parts : List Demand, AllPopulated parts → leavesAll parts = [l] → (Together style V parts ↔ l.Holds style V)
  | [], _, h => by simp [leavesAll] at h
  | d :: rest, hp, h => by
    -- The first part has the leaf, so nothing is left for a second one.
    have hd : d.leaves ≠ [] := hp.1.leaves_ne_nil
    rw [leavesAll] at h
    cases rest with
    | nil =>
      rw [together_singleton]
      exact holds_of_leaves_singleton d hp.1 (by simpa [leavesAll] using h)
    | cons d' rest' =>
      have hd' : d'.leaves ≠ [] := hp.2.1.leaves_ne_nil
      have hlen := congrArg List.length h
      have h₁ := List.length_pos_iff.mpr hd
      have h₂ := List.length_pos_iff.mpr hd'
      simp only [leavesAll, List.length_append, List.length_singleton] at hlen
      omega

end

mutual

theorem Populated.turn (markers : List Marker) : ∀ {d : Demand}, d.Populated → (d.turn markers).Populated
  | .leaf _, _ => trivial
  | .array _ parts, h => by
    rw [Demand.turn, Populated, leavesAll_turnAll]
    exact ⟨by simpa using h.1, AllPopulated.turnAll markers h.2⟩

theorem AllPopulated.turnAll (markers : List Marker) :
    ∀ {parts : List Demand}, AllPopulated parts → AllPopulated (turnAll markers parts)
  | [], _ => trivial
  | _ :: _, h => ⟨Populated.turn markers h.1, AllPopulated.turnAll markers h.2⟩

end

end Demand

end DocQuery
