import DocQuery.Error

/-!
# Clauses

A clause is one condition with the markers that apply to it. `Draft` collects its parts as their tokens come: markers,
the key, the operator, and at last the value, which completes the clause. An operator after that opens the same key
again; another key starts afresh. `takeOperator` and `takeValue` are `setOperator` and `complete` on a draft in place.
-/

namespace DocQuery

structure Condition where
  key : String
  operator : Option String
  value : Json
deriving DecidableEq, Repr

structure Clause where
  markers : List Marker
  condition : Condition
deriving DecidableEq, Repr

/-- The clause with one more marker, in front of its others. -/
def Clause.mark (c : Clause) (marker : Marker) : Clause := { c with markers := marker :: c.markers }

/-- A clause in the making. Once `done`, it takes no value before a new key or operator. -/
structure Draft where
  markers : List Marker := []
  key : Option String := none
  operator : Option String := none
  done : Bool := false
deriving DecidableEq, Repr, Inhabited

namespace Draft

def withMarkers (markers : List Marker) : Draft := { markers }

/-- One more marker, in front of the others. -/
def mark (d : Draft) (marker : Marker) : Draft := { d with markers := marker :: d.markers }

/-- No key has been read. -/
def isPending (d : Draft) : Bool := d.key.isNone

/-- The markers, as long as no key has claimed them. -/
def pendingMarkers (d : Draft) : List Marker := if d.isPending then d.markers else []

/-- The first key keeps the markers before it; a later one starts a new clause. -/
def setKey (d : Draft) (key : String) : Draft :=
  if d.isPending then { d with key := some key } else { key := some key }

def setOperator (d : Draft) (operator : String) : Except BuildError Draft :=
  if d.isPending then .error (.malformed (.operatorWithoutKey operator))
  else .ok { d with operator := some operator, done := false }

/-- The clause that a value completes, and the draft after it. -/
def complete (d : Draft) (value : Json) : Except BuildError (Clause × Draft) :=
  match d.key, d.done with
  | some key, false => .ok (⟨d.markers, ⟨key, d.operator, value⟩⟩, { d with done := true })
  | _, _ => .error (.malformed (.valueWithoutKey value))

/-! ## In place -/

/-- An operator, after a key. It opens the clause again. -/
def takeOperator (operator : String) : Edit Draft Unit := do
  if (← get).isPending then throw (.malformed (.operatorWithoutKey operator))
  modify ({ · with done := false })
  modify ({ · with operator := some operator })

/-- A value, and the clause that it completes. -/
def takeValue (value : Json) : Edit Draft Clause := do
  let d ← get
  match d.key, d.done with
  | some key, false =>
    modify ({ · with done := true })
    return ⟨d.markers, ⟨key, d.operator, value⟩⟩
  | _, _ => throw (.malformed (.valueWithoutKey value))

end Draft

end DocQuery
