import DocQuery.Proofs.Filter.Atoms

/-!
# When a filter holds

Filters are read against a valuation `V` of atoms. A filter holds if all its entries do; `$and` holds if all its
elements do, `$or` if one of them does, and the entry of an attribute holds if its atoms do.

A regular filter falls into two parts that additions touch one at a time: what is *required* (all entries but `$or`)
and the *alternatives* (the elements of `$or`). `Filter.holds_iff` puts the two together, and the lemmas after it say
what each addition does to each part.
-/

namespace DocQuery

section Holds

variable (V : String → Json → Prop)

/-- A condition holds if all its atoms do. -/
def LeafHolds (key : String) (fragment : Json) : Prop := ∀ a ∈ leafAtoms key fragment, V a.1 a.2

mutual

/-- An element of a connective holds if it is a filter that does. -/
def Json.Holds : Json → Prop
  | .obj entries => Filter.Holds entries
  | .arr _ => False
  | .null => False
  | .bool _ => False
  | .num _ => False
  | .str _ => False

def Filter.Holds : Filter → Prop
  | [] => True
  | (key, value) :: rest => Filter.EntryHolds key value ∧ Filter.Holds rest

def Filter.EntryHolds (key : String) : Json → Prop
  | .arr items =>
    match Combinator.ofOperator? key with
    | some .and => Filter.AllHold items
    | some .or => Filter.SomeHolds items
    | none => LeafHolds V key (.arr items)
  | .obj fields => LeafHolds V key (.obj fields)
  | .null => LeafHolds V key .null
  | .bool b => LeafHolds V key (.bool b)
  | .num n => LeafHolds V key (.num n)
  | .str s => LeafHolds V key (.str s)

def Filter.AllHold : List Json → Prop
  | [] => True
  | item :: rest => item.Holds ∧ Filter.AllHold rest

def Filter.SomeHolds : List Json → Prop
  | [] => False
  | item :: rest => item.Holds ∨ Filter.SomeHolds rest

end

end Holds

namespace Filter

variable {V : String → Json → Prop} {f : Filter} {key : String} {fragment : Json}

/-! ## Entries and elements -/

theorem holds_iff_forall : ∀ f : Filter, f.Holds V ↔ ∀ p ∈ f, EntryHolds V p.1 p.2
  | [] => by simp [Holds]
  | (key, value) :: rest => by rw [Holds, holds_iff_forall rest, List.forall_mem_cons]

theorem allHold_iff (items : List Json) : AllHold V items ↔ ∀ x ∈ items, x.Holds V := by
  induction items with
  | nil => simp [AllHold]
  | cons item rest ih => rw [AllHold, ih, List.forall_mem_cons]

theorem someHolds_iff (items : List Json) : SomeHolds V items ↔ ∃ x ∈ items, x.Holds V := by
  induction items with
  | nil => simp [SomeHolds]
  | cons item rest ih => simp [SomeHolds, ih]

theorem entryHolds_and (items : List Json) :
    EntryHolds V (Combinator.operator .and) (.arr items) ↔ ∀ x ∈ items, x.Holds V := by
  simp [EntryHolds, allHold_iff]

theorem entryHolds_or (items : List Json) :
    EntryHolds V (Combinator.operator .or) (.arr items) ↔ ∃ x ∈ items, x.Holds V := by
  simp [EntryHolds, someHolds_iff]

/-- The entry of an attribute is a condition. -/
theorem entryHolds_of_attribute (h : Combinator.ofOperator? key = none) (value : Json) :
    EntryHolds V key value ↔ LeafHolds V key value := by
  cases value <;> simp [EntryHolds, h]

theorem holds_single (h : Combinator.ofOperator? key = none) (value : Json) :
    (Json.single key value).Holds V ↔ LeafHolds V key value := by
  simp [Json.single, Json.Holds, Holds, entryHolds_of_attribute h]

/-- Operators that share an entry hold together. -/
theorem leafHolds_merge {old new : Object} (hd : areDisjoint old new = true) (hnodup : new.keys.Nodup) :
    LeafHolds V key (.obj (Object.merge old new)) ↔ LeafHolds V key (.obj old) ∧ LeafHolds V key (.obj new) := by
  simp only [LeafHolds, leafAtoms_merge hd hnodup, List.forall_mem_append]

/-! ## What is required, and the alternatives -/

/-- All entries but the alternatives hold. -/
def Required (V : String → Json → Prop) (f : Filter) : Prop :=
  ∀ p ∈ f, p.1 ≠ Combinator.operator .or → EntryHolds V p.1 p.2

/-- The elements of `$or`. -/
def alternatives (f : Filter) : List Json :=
  match f.find? (Combinator.operator .or) with
  | some (.arr items) => items
  | _ => []

theorem required_append (f g : Filter) : Required V (f ++ g) ↔ Required V f ∧ Required V g := by
  simp only [Required, List.forall_mem_append]

theorem required_cons (key : String) (value : Json) (rest : Filter) :
    Required V ((key, value) :: rest) ↔
      (key ≠ Combinator.operator .or → EntryHolds V key value) ∧ Required V rest := by
  simp only [Required, List.forall_mem_cons]

/-- Without a `$or`, all entries are required. -/
theorem required_iff_of_not_mem (h : Combinator.operator .or ∉ f.keys) :
    f.Required V ↔ ∀ p ∈ f, EntryHolds V p.1 p.2 := by
  constructor
  · intro hrequired p hp
    refine hrequired p hp fun hkey => h ?_
    rw [← hkey]
    exact Fields.mem_keys hp
  · intro hall p hp _
    exact hall p hp

/-- An entry that takes the place of another and asks for `P` beside it. -/
theorem required_replace {before after : Filter} {old value : Json} {P : Prop} (hkey : key ≠ Combinator.operator .or)
    (h : EntryHolds V key value ↔ EntryHolds V key old ∧ P) :
    Required V (before ++ (key, value) :: after) ↔ Required V (before ++ (key, old) :: after) ∧ P := by
  rw [required_append, required_cons, required_append, required_cons]
  simp only [hkey, ne_eq, not_false_eq_true, forall_const, h]
  constructor
  · rintro ⟨hbefore, ⟨hold, hp⟩, hafter⟩
    exact ⟨⟨hbefore, hold, hafter⟩, hp⟩
  · rintro ⟨⟨hbefore, hold, hafter⟩, hp⟩
    exact ⟨hbefore, ⟨hold, hp⟩, hafter⟩

/-- One `$or` at most stands in a regular filter, and it has elements. -/
theorem holds_iff (h : f.Regular) :
    f.Holds V ↔ f.Required V ∧ (f.alternatives ≠ [] → ∃ x ∈ f.alternatives, x.Holds V) := by
  rw [holds_iff_forall]
  cases hfind : f.find? (Combinator.operator .or) with
  | none =>
    have hnot : Combinator.operator .or ∉ f.keys := Fields.find?_eq_none_iff.mp hfind
    have halt : f.alternatives = [] := by simp [alternatives, hfind]
    rw [required_iff_of_not_mem hnot, halt]
    simp only [ne_eq, not_true_eq_false, false_implies, and_true]
  | some value =>
    obtain ⟨first, rest, rfl⟩ := h.connective .or value (Fields.mem_of_find? hfind)
    have halt : f.alternatives = first :: rest := by simp [alternatives, hfind]
    obtain ⟨before, after, rfl, _⟩ := Fields.exists_split_of_find? hfind
    -- With unique keys no other entry is a `$or`, so all others are required.
    obtain ⟨hb, ha⟩ := Fields.not_mem_keys_of_nodup h.nodup
    rw [halt, required_append, required_cons, required_iff_of_not_mem hb, required_iff_of_not_mem ha,
      List.forall_mem_append, List.forall_mem_cons, entryHolds_or]
    simp only [ne_eq, not_true_eq_false, false_implies, true_and, reduceCtorEq, not_false_eq_true, forall_const]
    constructor
    · rintro ⟨hbefore, hany, hafter⟩
      exact ⟨⟨hbefore, hafter⟩, hany⟩
    · rintro ⟨⟨hbefore, hafter⟩, hany⟩
      exact ⟨hbefore, hany, hafter⟩

/-! ## Additions -/

theorem alternatives_push_or (f : Filter) (entry : Json) :
    (f.push .or entry).alternatives = f.alternatives ++ [entry] :=
  elements_push f .or entry

theorem alternatives_insert (hkey : key ≠ Combinator.operator .or) (value : Json) (f : Filter) :
    alternatives (f.insert key value) = f.alternatives := by
  unfold alternatives
  rw [Fields.find?_insert_of_ne hkey]

theorem alternatives_push_and (f : Filter) (entry : Json) : (f.push .and entry).alternatives = f.alternatives := by
  have hne : Combinator.operator .and ≠ Combinator.operator .or := by decide
  unfold push
  split <;> exact alternatives_insert hne _ f

theorem alternatives_conjoin (hkey : Combinator.ofOperator? key = none) (fragment : Json) (f : Filter) :
    (f.conjoin key fragment).alternatives = f.alternatives := by
  have hne := Combinator.ne_operator hkey .or
  unfold conjoin
  split
  · exact alternatives_insert hne _ f
  · split
    · exact alternatives_insert hne _ f
    · exact alternatives_push_and f _

theorem required_push_or (h : f.Regular) (entry : Json) : (f.push .or entry).Required V ↔ f.Required V := by
  rcases h.push_cases .or entry with ⟨_, hp⟩ | ⟨before, first, rest, after, rfl, hp⟩
  · rw [hp, required_append, required_cons]
    simp [Required]
  · rw [hp, required_append, required_cons, required_append, required_cons]
    simp

theorem required_push_and (h : f.Regular) (entry : Json) :
    (f.push .and entry).Required V ↔ f.Required V ∧ entry.Holds V := by
  have hne : Combinator.operator .and ≠ Combinator.operator .or := by decide
  rcases h.push_cases .and entry with ⟨_, hp⟩ | ⟨before, first, rest, after, rfl, hp⟩
  · rw [hp, required_append, required_cons, entryHolds_and]
    simp [Required, hne]
  · rw [hp]
    refine required_replace hne ?_
    rw [entryHolds_and, entryHolds_and, List.forall_mem_append, List.forall_mem_singleton]

theorem required_conjoin (h : f.Regular) (hkey : Combinator.ofOperator? key = none)
    (hunique : fragment.hasUniqueKeys = true) :
    (f.conjoin key fragment).Required V ↔ f.Required V ∧ LeafHolds V key fragment := by
  have hne := Combinator.ne_operator hkey .or
  rcases conjoin_cases f key fragment with ⟨_, hj⟩ | ⟨before, old, after, new, _, rfl, hd, rfl, hj⟩ | ⟨_, _, _, hj⟩
  · rw [hj, required_append, required_cons, entryHolds_of_attribute hkey]
    simp [Required, hne]
  · rw [hj]
    refine required_replace hne ?_
    have hkeys := Json.nodup_keys_of_hasUniqueKeys hunique
    rw [entryHolds_of_attribute hkey, entryHolds_of_attribute hkey, leafHolds_merge hd hkeys]
  · rw [hj, required_push_and h, holds_single hkey]

end Filter

end DocQuery
