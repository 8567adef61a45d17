/-!
# Markers and modifiers

Conditions carry their boolean structure as words between the tokens. `AND` and `OR` combine; `AND`, `NOT` and `IN`
are also marks on a single condition. `Marker.resolve` reads a list of marks: an `AND` among them is a combinator,
and `NOT` and `IN` together are the modifier of the condition.
-/

namespace DocQuery

inductive Combinator where
  | and
  | or
deriving DecidableEq, Repr

inductive Marker where
  | and
  | not
  | inList
deriving DecidableEq, Repr

/-- How a condition is turned before it is emitted. -/
inductive Modifier where
  | plain
  | not
  | inList
  | notInList
deriving DecidableEq, Repr

/-- Where a condition goes: among the entries of the filter, or into one of its two connectives. -/
inductive Family where
  | root
  | or
  | and
deriving DecidableEq, Repr

namespace Combinator

/-- The combinator of a condition word, in any case. -/
def ofCondition? (word : String) : Option Combinator :=
  match word.toUpper with
  | "AND" => some .and
  | "OR" => some .or
  | _ => none

/-- The key of the connective in a filter. -/
def operator : Combinator → String
  | .and => "$and"
  | .or => "$or"

def family : Combinator → Family
  | .and => .and
  | .or => .or

end Combinator

namespace Marker

/-- The marker of a condition word, in any case. -/
def ofCondition? (word : String) : Option Marker :=
  match word.toUpper with
  | "AND" => some .and
  | "NOT" => some .not
  | "IN" => some .inList
  | _ => none

def name : Marker → String
  | .and => "AND"
  | .not => "NOT"
  | .inList => "IN"

end Marker

/-- The name of the operation that emits a turned condition into a family. -/
def Family.operationName (family : Family) (modifier : Modifier) : String :=
  let stem := match family with
    | .root => "where"
    | .or => "orWhere"
    | .and => "andWhere"
  let ending := match modifier with
    | .plain => ""
    | .not => "Not"
    | .inList => "In"
    | .notInList => "NotIn"
  stem ++ ending

/-! ## Pending modifiers -/

/-- Markers that wait for the condition after them. -/
structure Modifiers where
  markers : List Marker := []
deriving DecidableEq, Repr, Inhabited

namespace Modifiers

/-- Adds a marker. `AND` combines conditions and does not turn one, so it is not kept. -/
def push (m : Modifiers) (marker : Marker) : Modifiers :=
  if marker = .and then m else ⟨m.markers ++ [marker]⟩

def isEmpty (m : Modifiers) : Bool := m.markers.isEmpty

/-- How often a marker occurs does not matter, only whether it does. -/
def resolved (m : Modifiers) : Modifier :=
  match m.markers.contains .not, m.markers.contains .inList with
  | true, true => .notInList
  | true, false => .not
  | false, true => .inList
  | false, false => .plain

end Modifiers

/-! ## Resolution -/

/-- Which of the markers that were found are taken off the list. -/
inductive Strip where
  | all
  | only (markers : List Marker)
  | nothing
deriving DecidableEq, Repr

def Strip.strips (strip : Strip) (marker : Marker) : Bool :=
  match strip with
  | .all => true
  | .only markers => markers.contains marker
  | .nothing => false

structure Resolution where
  combinator : Option Combinator := none
  modifiers : Modifiers := {}
deriving DecidableEq, Repr

namespace Marker

/-- What a list of markers says. -/
def resolve (markers : List Marker) : Resolution where
  combinator := if markers.contains .and then some .and else none
  modifiers := ⟨[.not, .inList].filter markers.contains⟩

/-- The list without the first marker of each kind that the policy takes off. -/
def strip (policy : Strip) (markers : List Marker) : List Marker :=
  [.and, .not, .inList].foldl (fun left m => if policy.strips m then left.erase m else left) markers

end Marker

end DocQuery
