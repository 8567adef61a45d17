import DocQuery.Clause.Draft
import DocQuery.Filter.Like

/-!
# Fragments

The fragment of a condition is what stands after its key in a filter: the value itself, or an object with the
operator, the list or the negation that applies to it.
-/

namespace DocQuery

/-! ## Operators -/

namespace Operator

/-- The name of a comparison. A symbol without one is a name already. -/
def canonical (symbol : String) : String :=
  match symbol with
  | ">" => "$gt"
  | ">=" => "$gte"
  | "<" => "$lt"
  | "<=" => "$lte"
  | "<>" => "$ne"
  | "!" => "$ne"
  | other => other

def isLike (symbol : String) : Bool := symbol.toLower == "like"

/-- The value that an operator compares with: the pattern of a LIKE, and any other value as it is. -/
def operand (style : LikeStyle) (operator : Option String) (value : Json) : Except BuildError Json :=
  if operator.any isLike then
    match value with
    | .str raw => .ok (Like.operand style (Like.pattern raw))
    | other => .error (.malformed (.likePattern other))
  else .ok value

end Operator

/-! ## Conditions -/

/-- An array as it is, and any other value as an array of one. -/
def Json.asArray : Json → Json
  | .arr items => .arr items
  | other => .arr [other]

namespace Condition

/-- The comparison of a condition that is not turned. -/
def comparison (style : LikeStyle) (c : Condition) : Except BuildError Json :=
  match c.operator with
  | none => .ok c.value
  | some op =>
    if Operator.isLike op then Operator.operand style (some op) c.value
    else .ok (.single (Operator.canonical op) c.value)

/-- The fragment of a condition under a modifier. A list test has no regard for the operator. -/
def fragment (style : LikeStyle) (modifier : Modifier) (c : Condition) : Except BuildError Json :=
  match modifier with
  | .plain => c.comparison style
  | .not =>
    match c.operator with
    | none => .ok (.single "$ne" c.value)
    | some _ => (c.comparison style).map (.single "$not")
  | .inList => .ok (.single "$in" c.value.asArray)
  | .notInList => .ok (.single "$nin" c.value.asArray)

end Condition

end DocQuery
