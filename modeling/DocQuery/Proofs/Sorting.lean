import DocQuery.Proofs.Fields
import DocQuery.Query.Payload

/-!
# Sorting by pairs

The pairs of a sort clause go into the order one by one, up to the first that names no direction
(`Query.sortAll_append`, `Query.sortAll_of_undirected`). What is built by insertions has each key once, in the order in
which the keys come first (`Fields.keys_insertAll`), with the value that comes last (`Fields.find?_insertAll`).
-/

namespace DocQuery

/-- A list without repetitions grows by what is new. -/
theorem eraseDups_concat {α : Type} [DecidableEq α] (xs : List α) (x : α) :
    (xs ++ [x]).eraseDups = if x ∈ xs then xs.eraseDups else xs.eraseDups ++ [x] := by
  rw [List.eraseDups_append, List.cons_removeAll, List.nil_removeAll]
  by_cases h : x ∈ xs
  · simp [h]
  · simp [h, List.eraseDups_cons]

/-! ## Insertions one after the other -/

namespace Fields

variable {α : Type} {fields : Fields α}

def insertAll (fields : Fields α) (pairs : List (String × α)) : Fields α :=
  pairs.foldl (fun fields p => fields.insert p.1 p.2) fields

theorem insertAll_cons (fields : Fields α) (p : String × α) (pairs : List (String × α)) :
    fields.insertAll (p :: pairs) = (fields.insert p.1 p.2).insertAll pairs := rfl

/-- Each key stands where it came first. -/
theorem keys_insertAll {seen : List String} (h : fields.keys = seen.eraseDups) (pairs : List (String × α)) :
    (fields.insertAll pairs).keys = (seen ++ pairs.map (·.1)).eraseDups := by
  induction pairs generalizing fields seen with
  | nil => simpa [insertAll] using h
  | cons p pairs ih =>
    have hkeys : (fields.insert p.1 p.2).keys = (seen ++ [p.1]).eraseDups := by
      rw [keys_insert, eraseDups_concat, h]
      simp only [List.mem_eraseDups]
    rw [insertAll_cons, ih hkeys, List.append_assoc]
    rfl

/-- Each key has the value that came last. -/
theorem find?_insertAll (key : String) (fields : Fields α) (pairs : List (String × α)) :
    (fields.insertAll pairs).find? key =
      ((pairs.filter (·.1 = key)).getLast?.map (·.2)).or (fields.find? key) := by
  induction pairs generalizing fields with
  | nil => simp [insertAll]
  | cons p pairs ih =>
    rw [insertAll_cons, ih]
    by_cases hp : p.1 = key
    · subst hp
      rw [find?_insert_self, List.filter_cons_of_pos (by simp), List.getLast?_cons]
      cases (pairs.filter (·.1 = p.1)).getLast? <;> simp
    · rw [find?_insert_of_ne hp, List.filter_cons_of_neg (by simpa using hp)]

end Fields

/-! ## Directions -/

namespace Pairs

/-- The attributes of pairs, with the directions that they name. -/
def directions (pairs : List (String × Json)) : List (String × Direction) :=
  pairs.filterMap fun p => (Direction.ofJson? p.2).map (p.1, ·)

/-- Every pair names a direction. -/
def Directed (pairs : List (String × Json)) : Prop := ∀ p ∈ pairs, (Direction.ofJson? p.2).isSome = true

/-- Pairs name directions up to the first that does not. -/
theorem directed_or_exists (pairs : List (String × Json)) :
    Directed pairs ∨ ∃ before attr direction after, pairs = before ++ (attr, direction) :: after ∧ Directed before ∧
      Direction.ofJson? direction = none := by
  induction pairs with
  | nil => exact .inl (by simp [Directed])
  | cons p pairs ih =>
    obtain ⟨attr, direction⟩ := p
    cases hd : Direction.ofJson? direction with
    | none => exact .inr ⟨[], attr, direction, pairs, rfl, by simp [Directed], hd⟩
    | some d =>
      have hp : (Direction.ofJson? (attr, direction).2).isSome = true := by simp [hd]
      rcases ih with hall | ⟨before, attr', direction', after, rfl, hbefore, hnone⟩
      · exact .inl (List.forall_mem_cons.mpr ⟨hp, hall⟩)
      · exact .inr ⟨(attr, direction) :: before, attr', direction', after, rfl,
          List.forall_mem_cons.mpr ⟨hp, hbefore⟩, hnone⟩

end Pairs

namespace Query

theorem result_sortAll_cons (q : Query) (attr : String) (direction : Json) (rest : List (String × Json)) :
    (q.sortAll ((attr, direction) :: rest)).result = q.sort attr direction >>= fun q => (q.sortAll rest).result := by
  rw [sortAll]
  cases q.sort attr direction <;> rfl

/-- Pairs that name directions go into the order. -/
theorem sortAll_append (q : Query) {before : List (String × Json)} (h : Pairs.Directed before)
    (rest : List (String × Json)) :
    q.sortAll (before ++ rest) = { q with order := q.order.insertAll (Pairs.directions before) }.sortAll rest := by
  induction before generalizing q with
  | nil => rfl
  | cons p before ih =>
    obtain ⟨attr, direction⟩ := p
    obtain ⟨hp, hbefore⟩ := List.forall_mem_cons.mp h
    obtain ⟨d, hd⟩ := Option.isSome_iff_exists.mp hp
    have hsort : q.sort attr direction = .ok { q with order := q.order.insert attr d } := by
      simp only [sort, Direction.read, hd]
      rfl
    have hdirections : Pairs.directions ((attr, direction) :: before) = (attr, d) :: Pairs.directions before := by
      simp only [Pairs.directions, List.filterMap_cons, hd, Option.map_some]
    simp only [List.cons_append, sortAll, hsort]
    rw [ih _ hbefore, hdirections, Fields.insertAll_cons]

theorem sortAll_of_directed (q : Query) {pairs : List (String × Json)} (h : Pairs.Directed pairs) :
    q.sortAll pairs = ⟨{ q with order := q.order.insertAll (Pairs.directions pairs) }, none⟩ := by
  have happend := q.sortAll_append h []
  rwa [List.append_nil] at happend

/-- A pair that names no direction is refused, and those after it are not seen. -/
theorem sortAll_of_undirected (q : Query) {attr : String} {direction : Json} (h : Direction.ofJson? direction = none)
    (after : List (String × Json)) :
    q.sortAll ((attr, direction) :: after) = ⟨q, some (.sortDirection attr direction)⟩ := by
  have hsort : q.sort attr direction = .error (.sortDirection attr direction) := by
    simp only [sort, Direction.read, h]
    rfl
  simp only [sortAll, hsort]

end Query

end DocQuery
