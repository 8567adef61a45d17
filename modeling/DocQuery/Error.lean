import DocQuery.Marker
import DocQuery.Scope
import DocQuery.Token

/-!
# Errors of a compilation

An error is the cause for which a tree is refused, with what was found at that place. The wording is in the `message`
functions and nowhere else.
-/

namespace DocQuery

/-- Causes in the order of the tokens, or in a payload. -/
inductive Malformed where
  /-- A token other than a value has a payload that is not a string. -/
  | payload (kind : TokenKind) (found : Json)
  | conditionOutsideFilter (found : Json)
  | beforeIdentifier (kind : TokenKind)
  | amongPairs (kind : TokenKind)
  | amongValues (kind : TokenKind) (clause : Identifier)
  | nestedGroup (scope : Scope)
  | operatorWithoutKey (operator : String)
  | valueWithoutKey (value : Json)
  | keyWithoutValue (key : String)
  | identifierInGroup (name : String)
  | likePattern (found : Json)
  | attributeName (clause : Identifier) (found : Json)
  | attributeList (clause : Identifier) (found : Json)
  | noAttributes (clause : Identifier)
  | collectionName (clause : Identifier) (found : Json)
  | rowCount (clause : Identifier) (found : Json)
  | unexpectedValue (clause : Identifier) (found : Json)
  | unexpectedPairs (clause : Identifier)
deriving DecidableEq, Repr

/-- Causes that are understood, and have no counterpart in the output. -/
inductive Unsupported where
  | joinInGroup (join : Identifier)
  | markersBeforeGroup (markers : List Marker) (members : Nat)
deriving DecidableEq, Repr

inductive BuildError where
  | sortDirection (field : String) (found : Json)
  | malformed (cause : Malformed)
  | unsupported (cause : Unsupported)
deriving DecidableEq, Repr

def Malformed.message : Malformed → String
  | .payload kind found => kind.name ++ " token expects a string, got " ++ found.compact
  | .conditionOutsideFilter found => "CONDITION '" ++ found.compact ++ "' outside of a WHERE clause"
  | .beforeIdentifier kind => kind.name ++ " token before any IDENTIFIER"
  | .amongPairs kind => kind.name ++ " token in a key/value clause"
  | .amongValues kind clause => kind.name ++ " token in a " ++ clause.name ++ " clause"
  | .nestedGroup scope => "nested group in " ++ scope.title
  | .operatorWithoutKey operator => "OPERATOR '" ++ operator ++ "' without a preceding KEY"
  | .valueWithoutKey value => "VALUE " ++ value.compact ++ " without a preceding KEY"
  | .keyWithoutValue key => "KEY '" ++ key ++ "' without a VALUE"
  | .identifierInGroup name => "IDENTIFIER '" ++ name ++ "' inside a WHERE group"
  | .likePattern found => "LIKE expects a string pattern, got " ++ found.compact
  | .attributeName clause found => clause.name ++ " expects attribute names, got " ++ found.compact
  | .attributeList clause found => clause.name ++ " expects a name or a list of names, got " ++ found.compact
  | .noAttributes clause => clause.name ++ " needs at least one attribute"
  | .collectionName clause found => clause.name ++ " expects a collection name, got " ++ found.compact
  | .rowCount clause found => clause.name ++ " expects a non-negative integer, got " ++ found.compact
  | .unexpectedValue clause found =>
    "VALUE " ++ found.compact ++ " is not expected in a " ++ clause.name ++ " clause"
  | .unexpectedPairs clause => clause.name ++ " clause does not take key/value pairs"

def Unsupported.message : Unsupported → String
  | .joinInGroup join => join.name ++ " inside a WHERE group"
  | .markersBeforeGroup markers members =>
    " ".intercalate (markers.map Marker.name) ++ " before a group of " ++ toString members ++ " members"

def BuildError.message : BuildError → String
  | .sortDirection field found =>
    "Invalid sort direction for '" ++ field ++ "': " ++ found.compact ++ " (expected asc, desc, 1 or -1)"
  | .malformed cause => "Malformed tree: " ++ cause.message
  | .unsupported cause => "Unsupported construct: " ++ cause.message

/-- What a call leaves behind, and why it failed if it did. A failed call may have done a part of its work. -/
structure Attempt (σ : Type) where
  state : σ
  error : Option BuildError := none
deriving Repr

/-- The state after a call that succeeded. -/
def Attempt.result {σ : Type} (a : Attempt σ) : Except BuildError σ :=
  match a.error with
  | none => .ok a.state
  | some e => .error e

/-- A call that on failure leaves the state as it was. -/
def Attempt.ofExcept {σ : Type} (before : σ) : Except BuildError σ → Attempt σ
  | .ok after => ⟨after, none⟩
  | .error e => ⟨before, some e⟩

/-- A call that changes a state in place, and gives a result if it succeeds. What it changed before it fails stays
changed. -/
abbrev Edit (σ α : Type) := EStateM BuildError σ α

/-- The call, made on a state. -/
def Edit.attempt {σ α : Type} (edit : Edit σ α) (before : σ) : Attempt σ :=
  match edit.run before with
  | .ok _ after => ⟨after, none⟩
  | .error e after => ⟨after, some e⟩

end DocQuery
