import DocQuery.Query.Edit

/-!
# Walking a group

`Cursor` walks the nodes of one group of a tree and states in the query what they say. An identifier ends the clause
before it and opens the next. `Cursor.step` takes one node, and `Cursor.endClause` ends the last clause; either leaves
a cursor that can go on, also when it fails.
-/

namespace DocQuery

/-- A place in a group: the scope, what waits there for further tokens, and the query so far. -/
structure Cursor where
  scope : Scope := .scanning
  modifiers : Modifiers := {}
  combinator : Option Combinator := none
  draft : Draft := {}
  pairs : Pairs := {}
  query : Query
deriving DecidableEq, Repr

namespace Cursor

/-- Ends the clause: the pairs that it collected go into the query. -/
def endClause (c : Cursor) : Attempt Cursor :=
  match c.scope.pairClause? with
  | none => ⟨c, none⟩
  | some clause =>
    let emptied := { c with pairs := {} }
    match c.pairs.close with
    | .error e => ⟨emptied, some e⟩
    | .ok pairs =>
      let flushed := c.query.flush clause pairs
      ⟨{ emptied with query := flushed.state }, flushed.error⟩

/-- Opens the clause of an identifier. A delete clause is complete with its name. -/
def openClause (c : Cursor) (identifier : Identifier) : Cursor :=
  { c with
    scope := .ofIdentifier identifier
    modifiers := {}
    combinator := none
    draft := {}
    query := if identifier = .delete then c.query.delete else c.query }

def identifier (c : Cursor) (t : Token) : Attempt Cursor :=
  match t.string with
  | .error e => ⟨c, some e⟩
  | .ok name =>
    let ended := c.endClause
    match ended.error with
    | some e => ⟨ended.state, some e⟩
    | none => ⟨ended.state.openClause (.ofName name), none⟩

/-- A condition word. Markers wait for a value or a group, and a combinator stays for all groups that follow. -/
def conditionWord (c : Cursor) (word : String) : Cursor :=
  match Marker.ofCondition? word with
  | some .not => { c with modifiers := c.modifiers.push .not }
  | some .inList => { c with modifiers := c.modifiers.push .inList }
  | _ => { c with combinator := (Combinator.ofCondition? word).or c.combinator }

def condition (c : Cursor) (t : Token) : Attempt Cursor :=
  match c.scope with
  | .conditions => .ofExcept c (t.string.map c.conditionWord)
  | .ignored _ => ⟨c, none⟩
  | _ => ⟨c, some (.malformed (.conditionOutsideFilter t.value))⟩

/-- A value that completes a condition. The markers are used up even if the condition cannot be emitted. -/
def conditionValue (c : Cursor) (value : Json) : Attempt Cursor :=
  match (Draft.takeValue value).run c.draft with
  | .error e draft => ⟨{ c with draft }, some e⟩
  | .ok clause draft =>
    let applied := (Query.Edit.apply .root c.modifiers.resolved clause.condition).attempt c.query
    ⟨{ c with draft, modifiers := {}, query := applied.state }, applied.error⟩

/-- A key, an operator or a value among conditions. -/
def conditionOperand (c : Cursor) (t : Token) : Attempt Cursor :=
  match t.kind with
  | .key => .ofExcept c (t.string.map fun key => { c with draft := c.draft.setKey key })
  | .operator =>
    match t.string with
    | .error e => ⟨c, some e⟩
    | .ok operator =>
      let taken := (Draft.takeOperator operator).attempt c.draft
      ⟨{ c with draft := taken.state }, taken.error⟩
  | _ => c.conditionValue t.value

/-- A key, an operator or a value among pairs. -/
def pairOperand (c : Cursor) (t : Token) : Attempt Cursor :=
  match t.kind with
  | .key => .ofExcept c (t.string.map fun key => { c with pairs := c.pairs.setKey key })
  | .value => .ofExcept c ((c.pairs.setValue t.value).map ({ c with pairs := · }))
  | kind => ⟨c, some (.malformed (.amongPairs kind))⟩

/-- A key, an operator or a value among the values of a clause. -/
def valueOperand (c : Cursor) (clause : Identifier) (t : Token) : Attempt Cursor :=
  match t.kind with
  | .value =>
    let assigned := (Query.Edit.assign clause t.value).attempt c.query
    ⟨{ c with query := assigned.state }, assigned.error⟩
  | kind => ⟨c, some (.malformed (.amongValues kind clause))⟩

def operand (c : Cursor) (t : Token) : Attempt Cursor :=
  match c.scope with
  | .scanning => ⟨c, some (.malformed (.beforeIdentifier t.kind))⟩
  | .ignored _ => ⟨c, none⟩
  | .conditions => c.conditionOperand t
  | .values clause => c.valueOperand clause t
  | .insertPairs => c.pairOperand t
  | .updatePairs => c.pairOperand t
  | .sortPairs => c.pairOperand t

/-- A nested group. The markers in front of it are used up, and a clause in the making is dropped. -/
def group (c : Cursor) (nodes : List Node) : Attempt Cursor :=
  match c.scope with
  | .conditions =>
    let pending := Draft.withMarkers c.modifiers.markers
    let compiled := (Query.Edit.group false pending c.combinator nodes).attempt c.query
    ⟨{ c with modifiers := {}, draft := {}, query := compiled.state }, compiled.error⟩
  | .ignored _ => ⟨c, none⟩
  | scope => ⟨c, some (.malformed (.nestedGroup scope))⟩

/-- Takes one node. -/
def step (c : Cursor) : Node → Attempt Cursor
  | .group nodes => c.group nodes
  | .token t =>
    match t.kind with
    | .identifier => c.identifier t
    | .condition => c.condition t
    | _ => c.operand t

end Cursor

/-! ## Whole trees -/

/-- States in the query what one group says, up to the first error. -/
def Query.walk (q : Query) (nodes : Group) : Except BuildError Query := do
  let cursor ← nodes.foldlM (fun (c : Cursor) node => (c.step node).result) { query := q }
  return (← cursor.endClause.result).query

/-- The query of a tree: its groups one after the other, each read from a fresh start. -/
def compile (dialect : Dialect) (tree : Tree) : Except BuildError Query :=
  tree.groups.foldlM Query.walk (.empty dialect)

end DocQuery
