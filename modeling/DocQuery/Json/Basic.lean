import DocQuery.Number.Decimal

/-!
# JSON values

Objects keep their fields in order. `Fields.insert` is the one way in which a field is added: the value of a key that
is already there is replaced in its place, and a new key goes to the end. An object built by insertions has each key
once; `Json.collapse` brings any value into that form.
-/

namespace DocQuery

/-! ## Ordered fields -/

/-- Fields in order, looked up by the first one with a key. -/
abbrev Fields (α : Type) := List (String × α)

namespace Fields

variable {α : Type}

def find? (key : String) : Fields α → Option α
  | [] => none
  | (k, v) :: rest => if k = key then some v else find? key rest

/-- Replaces the value of `key` in its place, or appends the field. -/
def insert (key : String) (value : α) : Fields α → Fields α
  | [] => [(key, value)]
  | (k, v) :: rest => if k = key then (k, value) :: rest else (k, v) :: insert key value rest

def keys (fields : Fields α) : List String := fields.map (·.1)

def contains (key : String) (fields : Fields α) : Bool := (fields.find? key).isSome

/-- The fields inserted one after the other: the last value of a key stands at the place of its first. -/
def ofList (pairs : List (String × α)) : Fields α := pairs.foldl (fun fields p => fields.insert p.1 p.2) []

@[simp] theorem find?_insert_self (key : String) (value : α) (fields : Fields α) :
    (fields.insert key value).find? key = some value := by
  fun_induction insert key value fields <;> simp_all [find?]

theorem find?_insert_of_ne {key other : String} (h : key ≠ other) (value : α) (fields : Fields α) :
    (fields.insert key value).find? other = fields.find? other := by
  fun_induction insert key value fields <;> simp_all [find?]

/-- A key that is there keeps its place, and a new one goes to the end. -/
theorem keys_insert (key : String) (value : α) (fields : Fields α) :
    (fields.insert key value).keys = if key ∈ fields.keys then fields.keys else fields.keys ++ [key] := by
  fun_induction insert key value fields <;> grind [keys]

/-- Insertion keeps each key unique. -/
theorem nodup_keys_insert (key : String) (value : α) {fields : Fields α} (h : fields.keys.Nodup) :
    (fields.insert key value).keys.Nodup := by
  rw [keys_insert]
  split
  · exact h
  · exact List.nodup_append.mpr ⟨h, by simp, by grind⟩

end Fields

/-! ## Values -/

inductive Json where
  | null
  | bool (b : Bool)
  | num (n : Number)
  | str (s : String)
  | arr (items : List Json)
  | obj (fields : List (String × Json))
deriving Inhabited, Repr

/-- The fields of an object. -/
abbrev Object := Fields Json

namespace Json

def int (n : Int) : Json := .num (.int n)

def nat (n : Nat) : Json := .int n

/-- An object with one field. -/
def single (key : String) (value : Json) : Json := .obj [(key, value)]

def string? : Json → Option String
  | .str s => some s
  | _ => none

/-- The number of a non-negative integer. An integral double is none. -/
def nat? : Json → Option Nat
  | .num (.int n) => n.toNat?
  | _ => none

/-! ## Keys that occur once -/

mutual

/-- The value with each key of each object kept once: its last value, at its first place. -/
def collapse : Json → Json
  | .arr items => .arr (collapseItems items)
  | .obj fields => .obj (Fields.ofList (collapseFields fields))
  | .null => .null
  | .bool b => .bool b
  | .num n => .num n
  | .str s => .str s

def collapseItems : List Json → List Json
  | [] => []
  | item :: rest => item.collapse :: collapseItems rest

def collapseFields : List (String × Json) → List (String × Json)
  | [] => []
  | (key, value) :: rest => (key, value.collapse) :: collapseFields rest

end

/-! ## Equality -/

mutual

def decEq : (a b : Json) → Decidable (a = b)
  | .null, b => by cases b <;> first | exact isTrue rfl | exact isFalse nofun
  | .bool x, b => by
    cases b with
    | bool y => exact decidable_of_iff (x = y) (by simp)
    | _ => exact isFalse nofun
  | .num x, b => by
    cases b with
    | num y => exact decidable_of_iff (x = y) (by simp)
    | _ => exact isFalse nofun
  | .str x, b => by
    cases b with
    | str y => exact decidable_of_iff (x = y) (by simp)
    | _ => exact isFalse nofun
  | .arr xs, b => by
    cases b with
    | arr ys => exact @decidable_of_iff _ (xs = ys) (by simp) (decEqItems xs ys)
    | _ => exact isFalse nofun
  | .obj xs, b => by
    cases b with
    | obj ys => exact @decidable_of_iff _ (xs = ys) (by simp) (decEqFields xs ys)
    | _ => exact isFalse nofun

def decEqItems : (xs ys : List Json) → Decidable (xs = ys)
  | [], [] => isTrue rfl
  | [], _ :: _ => isFalse nofun
  | _ :: _, [] => isFalse nofun
  | x :: xs, y :: ys =>
    match decEq x y, decEqItems xs ys with
    | isTrue h, isTrue hs => isTrue (by rw [h, hs])
    | isFalse h, _ => isFalse (fun e => h (List.cons.inj e).1)
    | _, isFalse hs => isFalse (fun e => hs (List.cons.inj e).2)

def decEqFields : (xs ys : List (String × Json)) → Decidable (xs = ys)
  | [], [] => isTrue rfl
  | [], _ :: _ => isFalse nofun
  | _ :: _, [] => isFalse nofun
  | (k, x) :: xs, (l, y) :: ys =>
    match decEq x y, decEqFields xs ys with
    | isTrue h, isTrue hs =>
      if hk : k = l then isTrue (by rw [h, hs, hk]) else isFalse (fun e => hk (Prod.mk.inj (List.cons.inj e).1).1)
    | isFalse h, _ => isFalse (fun e => h (Prod.mk.inj (List.cons.inj e).1).2)
    | _, isFalse hs => isFalse (fun e => hs (List.cons.inj e).2)

end

instance : DecidableEq Json := decEq

end Json

end DocQuery
