import DocQuery.Json.Basic

/-!
# Deep merge

Fields of an incoming object are inserted into a target one by one. Where both hold an object under a key, the two
are merged; anything else is replaced by the incoming value.
-/

namespace DocQuery

namespace Object

mutual

/-- Puts one incoming value under a key of the target. -/
def mergeValue (target : Object) (key : String) : Json → Object
  | .obj incoming =>
    match target.find? key with
    | some (.obj existing) => target.insert key (.obj (merge existing incoming))
    | _ => target.insert key (.obj incoming)
  | .null => target.insert key .null
  | .bool b => target.insert key (.bool b)
  | .num n => target.insert key (.num n)
  | .str s => target.insert key (.str s)
  | .arr items => target.insert key (.arr items)

/-- Merges the incoming fields into the target, in their order. -/
def merge (target : Object) : List (String × Json) → Object
  | [] => target
  | (key, value) :: rest => merge (mergeValue target key value) rest

end

end Object

end DocQuery
