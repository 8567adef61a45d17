import DocQuery.Proofs.Filter.Steps

/-!
# The atoms of a filter

An atom is a condition that cannot be split any further: an attribute with one operator, or with a plain value.
The entry of an attribute holds one atom for each of its operators, and the entry of a connective holds those of all
its elements.

An addition to a regular filter adds the atoms of what is added and keeps all others: `atoms_push`, `atoms_conjoin`.
Atoms are compared up to their order, since a shared entry puts an operator next to those of its key.
-/

namespace DocQuery

/-- A key, and what stands under it. -/
abbrev Atom := String × Json

/-- The atoms of a condition: operators are split, and anything else stays whole. -/
def leafAtoms (key : String) (fragment : Json) : List Atom :=
  match fragment with
  | .obj operators =>
    if Object.isOperators operators then operators.map fun p => (key, .single p.1 p.2) else [(key, .obj operators)]
  | other => [(key, other)]

mutual

/-- The atoms of an element of a connective. -/
def Json.atoms : Json → List Atom
  | .obj entries => Filter.atoms entries
  | .arr _ => []
  | .null => []
  | .bool _ => []
  | .num _ => []
  | .str _ => []

def Filter.atoms : Filter → List Atom
  | [] => []
  | (key, value) :: rest => Filter.entryAtoms key value ++ Filter.atoms rest

def Filter.entryAtoms (key : String) : Json → List Atom
  | .arr items => if (Combinator.ofOperator? key).isSome then Filter.elementAtoms items else leafAtoms key (.arr items)
  | .obj fields => leafAtoms key (.obj fields)
  | .null => leafAtoms key .null
  | .bool b => leafAtoms key (.bool b)
  | .num n => leafAtoms key (.num n)
  | .str s => leafAtoms key (.str s)

def Filter.elementAtoms : List Json → List Atom
  | [] => []
  | item :: rest => item.atoms ++ Filter.elementAtoms rest

end

/-- Operators that share an entry keep their atoms. -/
theorem leafAtoms_merge {key : String} {old new : Object} (hd : Filter.areDisjoint old new = true)
    (hnodup : new.keys.Nodup) :
    leafAtoms key (.obj (Object.merge old new)) = leafAtoms key (.obj old) ++ leafAtoms key (.obj new) := by
  obtain ⟨ho, hn⟩ := Filter.isOperators_of_areDisjoint hd
  simp only [leafAtoms, ho, hn, Filter.isOperators_merge ho hn, ↓reduceIte]
  rw [Filter.merge_eq_append hd hnodup, List.map_append]

namespace Filter

variable {f : Filter} {key : String} {fragment : Json}

theorem atoms_append : ∀ f g : Filter, atoms (f ++ g) = atoms f ++ atoms g
  | [], _ => rfl
  | (key, value) :: rest, g => by
    rw [List.cons_append, atoms, atoms, atoms_append rest g, List.append_assoc]

theorem elementAtoms_append : ∀ xs ys : List Json, elementAtoms (xs ++ ys) = elementAtoms xs ++ elementAtoms ys
  | [], _ => rfl
  | x :: xs, ys => by
    rw [List.cons_append, elementAtoms, elementAtoms, elementAtoms_append xs ys, List.append_assoc]

/-- The atoms around an entry. -/
theorem atoms_split (before after : Filter) (key : String) (value : Json) :
    atoms (before ++ (key, value) :: after) = atoms before ++ (entryAtoms key value ++ atoms after) := by
  rw [atoms_append, atoms]

theorem entryAtoms_operator (c : Combinator) (items : List Json) :
    entryAtoms c.operator (.arr items) = elementAtoms items := by
  simp [entryAtoms]

/-- The entry of an attribute is a condition. -/
theorem entryAtoms_of_attribute (h : Combinator.ofOperator? key = none) (value : Json) :
    entryAtoms key value = leafAtoms key value := by
  cases value <;> simp [entryAtoms, h]

theorem atoms_single (h : Combinator.ofOperator? key = none) (value : Json) :
    (Json.single key value).atoms = leafAtoms key value := by
  simp [Json.single, Json.atoms, atoms, entryAtoms_of_attribute h]

/-! ## Additions -/

/-- The atoms of one more value under an entry, moved to the end. -/
theorem perm_replace {before after : Filter} {old value : Json} {added : List Atom}
    (h : entryAtoms key value = entryAtoms key old ++ added) :
    (atoms (before ++ (key, value) :: after)).Perm (atoms (before ++ (key, old) :: after) ++ added) := by
  rw [atoms_split, atoms_split, h, List.append_assoc, List.append_assoc, List.append_assoc]
  refine List.Perm.append_left _ (List.Perm.append_left _ ?_)
  exact List.perm_append_comm

theorem atoms_push (h : f.Regular) (c : Combinator) (entry : Json) :
    (f.push c entry).atoms.Perm (f.atoms ++ entry.atoms) := by
  rcases h.push_cases c entry with ⟨_, hp⟩ | ⟨before, first, rest, after, rfl, hp⟩
  · rw [hp, atoms_append]
    simp [atoms, entryAtoms_operator, elementAtoms]
  · rw [hp]
    refine perm_replace ?_
    simp only [entryAtoms_operator]
    rw [elementAtoms_append]
    simp [elementAtoms]

theorem atoms_conjoin (h : f.Regular) (hkey : Combinator.ofOperator? key = none)
    (hunique : fragment.hasUniqueKeys = true) :
    (f.conjoin key fragment).atoms.Perm (f.atoms ++ leafAtoms key fragment) := by
  rcases conjoin_cases f key fragment with ⟨_, hj⟩ | ⟨before, old, after, new, _, rfl, hd, rfl, hj⟩ | ⟨_, _, _, hj⟩
  · rw [hj, atoms_append]
    simp [atoms, entryAtoms_of_attribute hkey]
  · rw [hj]
    refine perm_replace ?_
    rw [entryAtoms_of_attribute hkey, entryAtoms_of_attribute hkey]
    exact leafAtoms_merge hd (Json.nodup_keys_of_hasUniqueKeys hunique)
  · rw [hj, ← atoms_single hkey]
    exact atoms_push h .and _

theorem atoms_graft (h : f.Regular) (c : Combinator) (nested : Filter) :
    (f.graft c nested).atoms.Perm (f.atoms ++ nested.atoms) := by
  unfold graft
  cases nested with
  | nil => simp [atoms]
  | cons p rest =>
    rw [if_neg (by simp)]
    exact atoms_push h c _

end Filter

end DocQuery
