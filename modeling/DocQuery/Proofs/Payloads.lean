import DocQuery.Proofs.Clauses

/-!
# What payloads name

The names and the collection that a payload gives, read off the value alone. A payload that is accepted is read in the
same way (`names_eq`, `counted_eq`, `collection_eq`).
-/

namespace DocQuery

namespace Json

/-- The names in a payload: a string, or the strings of an array. -/
def names : Json → List String
  | .str name => [name]
  | .arr items => items.filterMap string?
  | _ => []

/-- The names to count by. A star alone is none. -/
def countedNames (value : Json) : List String := if value = .str "*" then [] else value.names

/-- The name of a collection: a string, or the one under `table`. -/
def collectionName? : Json → Option String
  | .str name => some name
  | .obj fields => (Fields.find? "table" fields).bind string?
  | _ => none

end Json

namespace Payload

variable {i : Identifier} {value : Json}

theorem nameItems_eq {items : List Json} {names : List String} (h : nameItems i items = .ok names) :
    items.filterMap Json.string? = names := by
  induction items generalizing names with
  | nil =>
    cases h
    rfl
  | cons item items ih =>
    cases item with
    | str name =>
      obtain ⟨rest, hrest, h⟩ := bind_eq_ok.mp h
      cases h
      simp only [List.filterMap_cons, Json.string?, ih hrest]
    | _ => cases h

theorem names_eq {names : List String} (h : Payload.names i value = .ok names) : value.names = names := by
  cases value with
  | str name =>
    cases h
    rfl
  | arr items => exact nameItems_eq h
  | _ => cases h

theorem counted_eq {names : List String} (h : counted value = .ok names) : value.countedNames = names := by
  unfold counted at h
  split at h
  · cases h
    rfl
  · cases h
    rfl
  · rename_i hstar
    rw [Json.countedNames, if_neg hstar, names_eq h]

theorem collection_eq {name : String} (h : Payload.collection i value = .ok name) :
    value.collectionName? = some name := by
  cases value with
  | str found =>
    cases h
    rfl
  | obj fields =>
    simp only [Payload.collection] at h
    split at h
    · rename_i found hfound
      cases h
      exact hfound
    · cases h
  | _ => cases h

theorem rows_eq {n : Nat} (h : rows i value = .ok n) : value.nat? = some n := by
  unfold rows at h
  split at h
  · rename_i m hm
    cases h
    exact hm
  · cases h

end Payload

end DocQuery
